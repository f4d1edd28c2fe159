import Arbor.Proofs.Mortality
import Arbor.Proofs.Refusals

/-!
# Attributes and tags over a whole run

The attributes and the tags of a living node tell what was done to it since it was created: what was
set or given and not taken away later, neither by itself nor when the node or an ancestor that it had
then was destroyed.

* `Forest.Does`                 what an edit does to the attributes and the tags of a node;
* `Linked.annotations_of_edit`  an edit does that and nothing else to them;
* `Reachable.annotations_of_step`  and no step does more;
* `Session.annotations_follow_run`  so they are what all steps of a run did.
-/

namespace Arbor

/-! ## edits -/

namespace Forest

/-- what an edit does to the attributes and the tags of a node -/
inductive Does (f : Forest) (n : NodeId) : Edit → Deed → Prop where
  /-- destroying the node or an ancestor of it -/
  | reset {k : Nat} {m : NodeId} : f.ancestor? k n = some m → Does f n (.destroy m) .reset
  | set (name : String) {value : Value} {text : String} :
    value.stored = .ok text → Does f n (.setAttribute n name value) (.set name text)
  | unset (name : String) : Does f n (.removeAttribute n name) (.unset name)
  | mark (t : String) : Does f n (.tag n t) (.mark t)

theorem Does.unique {f : Forest} {n : NodeId} {e : Edit} {d d' : Deed} (h : f.Does n e d)
    (h' : f.Does n e d') : d' = d := by
  cases h with
  | reset _ => cases h'; rfl
  | set name htext =>
    cases h' with
    | set _ htext' =>
      rw [htext] at htext'
      cases htext'
      rfl
  | unset name => cases h'; rfl
  | mark t => cases h'; rfl

/-- the annotations of a node in the second forest are what the edit does to those in the first -/
def Annotated (f g : Forest) (n : NodeId) (e : Edit) : Prop :=
  (∃ d, f.Does n e d ∧ (g.node n).annotations = d.on (f.node n).annotations) ∨
    (∀ d, ¬ f.Does n e d) ∧ (g.node n).annotations = (f.node n).annotations

/-- an edit of the annotations of one node does nothing to those of others -/
theorem annotated_update {f : Forest} {n m : NodeId} {e : Edit} {d : Deed} {change : Node → Node}
    (hm : m < f.size) (hsame : f.Does m e d) (hother : n ≠ m → ∀ d, ¬ f.Does n e d)
    (hchange : ∀ node, (change node).annotations = d.on node.annotations) :
    f.Annotated (f.update m change) n e := by
  unfold Annotated
  rw [node_update hm]
  by_cases hn : n = m
  · rw [if_pos hn]
    exact Or.inl ⟨d, hn ▸ hsame, hchange _⟩
  · rw [if_neg hn]
    exact Or.inr ⟨hother hn, rfl⟩

/-- An edit that is carried out does to the attributes and the tags of a node what it is said to do,
and nothing if nothing is said. -/
theorem Linked.annotations_of_edit {f : Forest} (h : f.Linked) {e : Edit} {c : Change Answer}
    (he : ∀ n ∈ e.nodes, n < f.size) (hc : f.edit e = .ok c) (n : NodeId) :
    f.Annotated c.forest n e := by
  have hedited := h.edited he hc
  generalize c.forest = g at hedited ⊢
  cases hedited with
  | missed | kept => exact Or.inr ⟨fun d hd => (by cases hd), rfl⟩
  | @attached p b _ _ =>
    have hb : b < f.size := he b (by simp [Edit.nodes, Value.nodes])
    refine Or.inr ⟨fun d hd => (by cases hd), ?_⟩
    rw [node_attach (he p List.mem_cons_self) hb]
    rfl
  | detached hp =>
    obtain ⟨hbs, hps⟩ := h.lt_size_of_parent hp
    refine Or.inr ⟨fun d hd => (by cases hd), ?_⟩
    rw [node_detach hps hbs]
    rfl
  | @substituted p b m hp _ _ =>
    obtain ⟨hbs, hps⟩ := h.lt_size_of_parent hp
    have hm : m < f.size := he m (by simp [Edit.nodes, Value.nodes])
    refine Or.inr ⟨fun d hd => (by cases hd), ?_⟩
    rw [node_substitute hps hbs hm]
    rfl
  | set htext =>
    refine annotated_update (he _ List.mem_cons_self) (.set _ htext) ?_ fun _ => rfl
    intro hne d hd
    cases hd
    exact hne rfl
  | unset =>
    refine annotated_update (he _ List.mem_cons_self) (.unset _) ?_ fun _ => rfl
    intro hne d hd
    cases hd
    exact hne rfl
  | tagged =>
    refine annotated_update (he _ List.mem_cons_self) (.mark _) ?_ fun _ => rfl
    intro hne d hd
    cases hd
    exact hne rfl
  | @destroyed m =>
    rcases h.node_destroy (he m List.mem_cons_self) n with ⟨⟨k, hk⟩, hn⟩ | ⟨hk, hn⟩
    · refine Or.inl ⟨.reset, .reset hk, ?_⟩
      rw [hn]
      rfl
    · refine Or.inr ⟨fun d hd => ?_, by rw [hn]; rfl⟩
      cases hd with
      | reset hup => exact hk _ hup

end Forest

/-! ## steps -/

namespace Session

/-- the command is carried out and does this to the attributes and the tags of the node -/
def Did (s : Session) (n : NodeId) (c : Command) (d : Deed) : Prop :=
  (s.step c).1.accepted = true ∧ ∃ e, c = .edit e ∧ s.forest.Does n e d

theorem Did.unique {s : Session} {n : NodeId} {c : Command} {d d' : Deed} (h : s.Did n c d)
    (h' : s.Did n c d') : d' = d := by
  obtain ⟨_, e, rfl, hd⟩ := h
  obtain ⟨_, e', he, hd'⟩ := h'
  cases he
  exact hd.unique hd'

/-- of what is not gone only the parent can change by settling -/
theorem WellFormed.annotations_settle {s : Session} (h : s.WellFormed) {n : NodeId}
    (hn : ¬ s.settle.Gone n) :
    (s.settle.forest.node n).annotations = (s.forest.node n).annotations := by
  by_cases hlive : s.Alive n
  · obtain ⟨_, _, hattributes, htags⟩ := Node.content_eq_iff.mp (h.content_settle hlive)
    unfold Node.annotations
    rw [hattributes, htags]
  · have hsize : s.settle.forest.size ≤ n := by
      by_contra hlt
      exact hn ⟨Nat.lt_of_not_le hlt, fun hs => hlive (h.alive_settle_iff.mp hs)⟩
    have hsize' : s.forest.size ≤ n := by
      rwa [← Forest.size_settle s.forest s.living]
    rw [Forest.node_of_size_le hsize, Forest.node_of_size_le hsize']

namespace Reachable

/-- A step does at most one thing to the attributes and the tags of a node that is there afterwards
or is still to come, and if it does none, they stay what they are. -/
theorem annotations_of_step {s : Session} (h : s.Reachable) (c : Command) {n : NodeId}
    (hn : ¬ (s.step c).2.Gone n) :
    (∃ d, s.Did n c d ∧
      ((s.step c).2.forest.node n).annotations = d.on (s.forest.node n).annotations) ∨
    (∀ d, ¬ s.Did n c d) ∧
      ((s.step c).2.forest.node n).annotations = (s.forest.node n).annotations := by
  cases hdone : s.attempt c with
  | error fault =>
    have hstep : s.step c = (⟨.error fault, []⟩, s) := by
      rw [step, hdone, h.settle_eq]
    refine Or.inr ⟨fun d hd => ?_, by rw [hstep]⟩
    have haccepted := hd.1
    rw [hstep] at haccepted
    cases haccepted
  | ok done =>
    have hstep : s.step c = (⟨.ok done.answer, done.log⟩, done.session.settle) := by
      rw [step, hdone]
    have haccepted : (s.step c).1.accepted = true := by rw [hstep]; rfl
    rw [hstep] at hn ⊢
    rw [(h.wellFormed.attempt hdone).annotations_settle hn]
    rcases h.wellFormed.attempt_cases hdone with
      ⟨e, change, rfl, hheld, hchange, rfl⟩ | ⟨hother, hgrown⟩
    · have he : ∀ m ∈ e.nodes, m < s.forest.size := fun m hm =>
        h.wellFormed.lt_size_of_held (hheld m hm)
      rcases h.linked.annotations_of_edit he hchange n with ⟨d, hd, hnode⟩ | ⟨hnone, hnode⟩
      · exact Or.inl ⟨d, ⟨haccepted, e, rfl, hd⟩, hnode⟩
      · refine Or.inr ⟨fun d hd => ?_, hnode⟩
        obtain ⟨_, e', he', hd⟩ := hd
        cases he'
        exact hnone d hd
    · refine Or.inr ⟨fun d hd => ?_, hgrown.annotations_eq n⟩
      obtain ⟨_, e, he, _⟩ := hd
      exact hother e he

end Reachable

/-! ## runs -/

/-- the session that the `i`-th command of a run meets -/
def met (commands : List Command) (i : Nat) : Session := (start.run (commands.take i)).2

/-- what the `i`-th command of a run does to the attributes and the tags of a node -/
def DidAt (commands : List Command) (n : NodeId) (i : Nat) (d : Deed) : Prop :=
  ∃ c, commands[i]? = some c ∧ (met commands i).Did n c d

theorem met_succ {commands : List Command} {i : Nat} {c : Command} (hc : commands[i]? = some c) :
    met commands (i + 1) = ((met commands i).step c).2 := by
  unfold met
  rw [List.take_add_one, hc, Option.toList_some, run_append]
  rfl

theorem met_length (commands : List Command) :
    met commands commands.length = (start.run commands).2 := by
  rw [met, List.take_length]

theorem reachable_met (commands : List Command) (i : Nat) : (met commands i).Reachable := ⟨_, rfl⟩

theorem not_gone_met {commands : List Command} {n : NodeId} (hn : (start.run commands).2.Alive n)
    (i : Nat) : ¬ (met commands i).Gone n := by
  intro hgone
  have hend := (reachable_met commands i).gone_of_run hgone (commands.drop i)
  have hrun : ((met commands i).run (commands.drop i)).2 = (start.run commands).2 := by
    conv_rhs => rw [← List.take_append_drop i commands, run_append]
    rfl
  rw [hrun] at hend
  exact hend.2 hn

/-- The annotations of a node that lives at the end of a run are, step by step, what was done to
them. -/
theorem follows_met {commands : List Command} {n : NodeId} (hn : (start.run commands).2.Alive n)
    {t : Nat} (ht : t ≤ commands.length) :
    ((met commands t).forest.node n).annotations.Follows (DidAt commands n) t := by
  induction t with
  | zero => exact .zero
  | succ t ih =>
    have hc : commands[t]? = some commands[t] := List.getElem?_eq_getElem ht
    have hdid : ∀ d, DidAt commands n t d ↔ (met commands t).Did n commands[t] d := by
      intro d
      unfold DidAt
      rw [hc]
      simp
    have hgone := not_gone_met hn (t + 1)
    rw [met_succ hc] at hgone ⊢
    have hbefore := ih (Nat.le_of_lt ht)
    rcases (reachable_met commands t).annotations_of_step commands[t] hgone with
      ⟨d, hd, hnode⟩ | ⟨hnone, hnode⟩
    · rw [hnode]
      refine hbefore.on fun d' => ?_
      rw [hdid]
      exact ⟨hd.unique, fun hd' => hd' ▸ hd⟩
    · rw [hnode]
      exact hbefore.idle fun d hd => hnone d ((hdid d).mp hd)

/-- The attributes of a node that lives at the end of a run are, each once, the names that were set
on it since it was created, destroyed itself or destroyed with an ancestor that it had then, as far
as they were not removed after that.  They stand in the order in which each was set first since then,
with the text that was set last.  Its tags are those that it was given since then, each once and in
the order in which it got them first.  No other step of the run changed its attributes or its tags. -/
theorem annotations_follow_run (commands : List Command) {n : NodeId}
    (hn : (start.run commands).2.Alive n) :
    ((start.run commands).2.forest.node n).annotations.Follows (DidAt commands n) commands.length ∧
    ∀ i c, commands[i]? = some c → (∀ d, ¬ (met commands i).Did n c d) →
      ((met commands (i + 1)).forest.node n).annotations =
        ((met commands i).forest.node n).annotations := by
  constructor
  · have hend := follows_met hn (Nat.le_refl commands.length)
    rwa [met_length] at hend
  · intro i c hc hnone
    have hgone := not_gone_met hn (i + 1)
    rw [met_succ hc] at hgone ⊢
    rcases (reachable_met commands i).annotations_of_step c hgone with ⟨d, hd, _⟩ | ⟨_, hnode⟩
    · exact absurd hd (hnone d)
    · exact hnode

/-- A branch that gets attributes and a tag, loses all when the root is destroyed, and gets others.
One of them is overwritten, one is removed and set again, and one is refused. -/
def relabelled : List Command :=
  [.create "root", .create "leaf", .edit (.add 0 (.node 1)),
    .edit (.setAttribute 1 "old" (.flag true)), .edit (.tag 1 "first"), .edit (.destroy 0),
    .edit (.setAttribute 1 "colour" (.text "red")), .edit (.setAttribute 1 "size" (.integer 1)),
    .edit (.setAttribute 1 "size" (.integer 2)), .edit (.removeAttribute 1 "colour"),
    .edit (.setAttribute 1 "colour" (.text "blue")), .edit (.setAttribute 1 "size" .absent),
    .edit (.tag 1 "second"), .edit (.tag 1 "third"), .edit (.tag 1 "second")]

theorem annotations_follow_run_relabelled :
    (start.run relabelled).2.Alive 1 ∧
      ((start.run relabelled).2.forest.node 1).annotations.Follows (DidAt relabelled 1) 15 ∧
      (∀ i c, relabelled[i]? = some c → (∀ d, ¬ (met relabelled i).Did 1 c d) →
        ((met relabelled (i + 1)).forest.node 1).annotations =
          ((met relabelled i).forest.node 1).annotations) ∧
      ((start.run relabelled).2.forest.node 1).annotations =
        ⟨[("size", "2"), ("colour", "blue")], ["second", "third"]⟩ := by
  have hlive : (start.run relabelled).2.Alive 1 := .anchored (.inl (by decide +kernel))
  obtain ⟨hfollows, hothers⟩ := annotations_follow_run relabelled hlive
  exact ⟨hlive, hfollows, hothers, by decide +kernel⟩

end Session
end Arbor
