import Arbor.Proofs.Chronicles
import Arbor.Proofs.Survivors

/-!
# The dead stay dead

No command brings back a node that died: what a command keeps alive was alive or is new, and new
nodes have new numbers.

* `Forest.Grown`               a forest with more nodes, and otherwise with more branches only;
* `Linked.parent_of_edit`      an edit gives new parents to nodes that it names;
* `WellFormed.alive_of_attempt`  a command keeps alive what was alive, and new nodes;
* `Session.Gone`, `Reachable.gone_of_run`  who died stays dead.
-/

namespace Arbor
namespace Forest

/-! ## growing -/

/-- The second forest has the nodes of the first one and perhaps more.  Old nodes may have got more
branches, new ones have no annotations. -/
structure Grown (f g : Forest) : Prop where
  size_le : f.size ≤ g.size
  parent_eq : ∀ m, m < f.size → (g.node m).parent = (f.node m).parent
  annotations_eq : ∀ m, (g.node m).annotations = (f.node m).annotations

namespace Grown

variable {f g : Forest}

theorem refl (f : Forest) : Grown f f := ⟨Nat.le_refl _, fun _ _ => rfl, fun _ => rfl⟩

theorem trans {k : Forest} (hfg : Grown f g) (hgk : Grown g k) : Grown f k where
  size_le := Nat.le_trans hfg.size_le hgk.size_le
  parent_eq m hm :=
    (hgk.parent_eq m (Nat.lt_of_lt_of_le hm hfg.size_le)).trans (hfg.parent_eq m hm)
  annotations_eq m := (hgk.annotations_eq m).trans (hfg.annotations_eq m)

theorem plant (f : Forest) (name : String) : Grown f (f.plant name) where
  size_le := by rw [size_plant]; exact Nat.le_succ _
  parent_eq m _ := (links_plant f name m).1
  annotations_eq m := by
    rcases Nat.lt_trichotomy m f.size with hm | rfl | hm
    · rw [node_plant_of_lt hm]
    · rw [node_plant_self, node_of_size_le (Nat.le_refl _)]
      rfl
    · rw [node_of_size_le (Nat.le_of_lt hm), node_of_size_le (by rw [size_plant]; exact hm)]

theorem sprout (f : Forest) {p : NodeId} (hp : p < f.size + 1) (name : String) :
    Grown f (f.sprout p name) := by
  have hplant := plant f name
  have hp' : p < (f.plant name).size := by rwa [size_plant]
  have hb : f.size < (f.plant name).size := by rw [size_plant]; exact Nat.lt_succ_self _
  refine ⟨by rw [size_sprout]; exact Nat.le_succ _, fun m hm => ?_, fun m => ?_⟩
  · show (((f.plant name).attach p f.size).node m).parent = _
    rw [node_attach hp' hb, ← hplant.parent_eq m hm]
    exact if_neg (Nat.ne_of_lt hm)
  · show (((f.plant name).attach p f.size).node m).annotations = _
    rw [node_attach hp' hb, ← hplant.annotations_eq m]
    rfl

theorem foldl {grow : Forest → String → Forest}
    (hgrow : ∀ k name, f.size ≤ k.size → Grown k (grow k name)) (names : List String)
    (h : Grown f g) : Grown f (names.foldl grow g) := by
  induction names generalizing g with
  | nil => exact h
  | cons name rest ih => exact ih (h.trans (hgrow g name h.size_le))

theorem plantChain (f : Forest) (names : List String) : Grown f (f.plantChain names) := by
  cases names with
  | nil => exact refl f
  | cons name rest =>
    refine foldl (fun k name _ => ?_) rest (plant f name)
    exact sprout k (Nat.lt_succ_of_le (Nat.sub_le k.size 1)) name

theorem plantBranches (f : Forest) {p : NodeId} (hp : p < f.size) (names : List String) :
    Grown f (f.plantBranches p names) := by
  rw [plantBranches_eq_foldl_sprout hp]
  refine foldl (fun k name hk => ?_) names (refl f)
  exact sprout k (Nat.lt_succ_of_lt (Nat.lt_of_lt_of_le hp hk)) name

end Grown

/-! ## new parents -/

theorem parent_of_update {f : Forest} {n b p : NodeId} (hn : n < f.size) {change : Node → Node}
    (hp : ((f.update n change).node b).parent = some p)
    (hchange : ∀ node, (change node).parent = node.parent) : (f.node b).parent = some p := by
  rw [node_update hn] at hp
  split at hp
  · rwa [hchange] at hp
  · exact hp

/-- an edit gives no parent to a node that it does not name -/
theorem Linked.parent_of_edit {f : Forest} (h : f.Linked) {e : Edit} {c : Change Answer}
    (he : ∀ n ∈ e.nodes, n < f.size) (hc : f.edit e = .ok c) {b p : NodeId}
    (hp : (c.forest.node b).parent = some p) : (f.node b).parent = some p ∨ b ∈ e.nodes := by
  have hedited := h.edited he hc
  generalize c.forest = g at hedited hp
  cases hedited with
  | missed | kept => exact Or.inl hp
  | @attached q n _ _ =>
    have hmem : n ∈ (Edit.add q (.node n)).nodes := by simp [Edit.nodes, Value.nodes]
    rw [node_attach (he q List.mem_cons_self) (he n hmem)] at hp
    by_cases hb : b = n
    · exact Or.inr (hb ▸ hmem)
    · exact Or.inl ((if_neg hb).symm.trans hp)
  | @detached q n hn =>
    obtain ⟨hns, hqs⟩ := h.lt_size_of_parent hn
    rw [node_detach hqs hns] at hp
    by_cases hb : b = n
    · cases (if_pos hb).symm.trans hp
    · exact Or.inl ((if_neg hb).symm.trans hp)
  | @substituted q n m hn _ _ =>
    obtain ⟨hns, hqs⟩ := h.lt_size_of_parent hn
    have hmem : m ∈ (Edit.replace q (.node n) (.node m)).nodes := by
      simp [Edit.nodes, Value.nodes]
    rw [node_substitute hqs hns (he m hmem)] at hp
    by_cases hb : b = m
    · exact Or.inr (hb ▸ hmem)
    · by_cases hbn : b = n
      · cases (if_pos hbn).symm.trans hp
      · exact Or.inl (((if_neg hbn).trans (if_neg hb)).symm.trans hp)
  | set _ => exact Or.inl (parent_of_update (he _ List.mem_cons_self) hp fun _ => rfl)
  | unset => exact Or.inl (parent_of_update (he _ List.mem_cons_self) hp fun _ => rfl)
  | tagged => exact Or.inl (parent_of_update (he _ List.mem_cons_self) hp fun _ => rfl)
  | @destroyed n =>
    left
    rcases h.node_destroy (he n List.mem_cons_self) b with ⟨_, hb⟩ | ⟨_, hb⟩
    · rw [hb] at hp
      cases hp
    · rwa [hb] at hp

end Forest

/-! ## commands -/

namespace Session
namespace WellFormed

variable {s : Session} (h : s.WellFormed)
include h

/-- a command that is no edit makes new nodes at most -/
theorem grown_of_attempt {c : Command} (hc : ∀ e, c ≠ .edit e) {done : Performed}
    (hdone : s.attempt c = .ok done) : s.forest.Grown done.session.forest := by
  cases hkind : c.changesForest with
  | false =>
    rw [forest_of_attempt hkind hdone]
    exact .refl s.forest
  | true =>
    rw [Session.attempt] at hdone
    split at hdone
    case isFalse => cases hdone
    case isTrue hheld =>
      cases c with
      | create name =>
        cases hdone
        exact .plant s.forest name
      | chain stem count =>
        cases hdone
        exact .plantChain s.forest _
      | fan n stem count =>
        cases hdone
        have hn := h.lt_size_of_held (List.all_eq_true.mp hheld n List.mem_cons_self)
        exact .plantBranches s.forest hn _
      | edit e => exact absurd rfl (hc e)
      | _ => cases hkind

/-- What a command that is carried out does to the nodes: it edits them, or it makes new ones at
most. -/
theorem attempt_cases {c : Command} {done : Performed} (hdone : s.attempt c = .ok done) :
    (∃ e change, c = .edit e ∧ (∀ n ∈ e.nodes, s.held.has n = true) ∧
      s.forest.edit e = .ok change ∧ done = s.adopt change) ∨
    (∀ e, c ≠ .edit e) ∧ s.forest.Grown done.session.forest := by
  by_cases hedit : ∃ e, c = .edit e
  · left
    obtain ⟨e, rfl⟩ := hedit
    rw [Session.attempt] at hdone
    split at hdone
    case isFalse => cases hdone
    case isTrue hheld =>
      obtain ⟨change, hchange, hadopt⟩ := Except.bind_eq_ok_iff.mp hdone
      cases hadopt
      exact ⟨e, change, rfl, List.all_eq_true.mp hheld, hchange, rfl⟩
  · right
    have hc : ∀ e, c ≠ .edit e := fun e he => hedit ⟨e, he⟩
    exact ⟨hc, h.grown_of_attempt hc hdone⟩

omit h in
theorem anchored_of_grow {g : Forest} {a : NodeId} (hsize : s.held.size = s.forest.size)
    (ha : (s.grow g).Anchored a) : s.Alive a ∨ s.forest.size ≤ a := by
  rcases ha with ha | ha
  · rcases (Marks.has_append_replicate s.held _ a).mp ha with ha | ⟨ha, _⟩
    · exact Or.inl (.anchored (.inl ha))
    · exact Or.inr (hsize ▸ ha)
  · exact Or.inl (.anchored (.inr ha))

theorem anchored_of_attempt {c : Command} {done : Performed} (hdone : s.attempt c = .ok done)
    {a : NodeId} (ha : done.session.Anchored a) : s.Alive a ∨ s.forest.size ≤ a := by
  cases hkind : c.letsGo with
  | true => exact Or.inl ((h.attempt_of_letsGo hkind hdone).2 a ha)
  | false =>
    rw [Session.attempt] at hdone
    split at hdone
    case isFalse => cases hdone
    case isTrue hheld =>
      cases c with
      | create name =>
        cases hdone
        exact anchored_of_grow h.size_held ha
      | chain stem count =>
        cases hdone
        exact anchored_of_grow h.size_held ha
      | fan n stem count =>
        cases hdone
        exact anchored_of_grow h.size_held ha
      | edit e =>
        obtain ⟨change, _, hadopt⟩ := Except.bind_eq_ok_iff.mp hdone
        cases hadopt
        exact Or.inl (.anchored ha)
      | list n listing label =>
        obtain ⟨answer, _, hsave⟩ := Except.bind_eq_ok_iff.mp hdone
        cases hsave
        cases label with
        | none => exact Or.inl (.anchored ha)
        | some v => cases hkind
      | read label =>
        obtain ⟨saved, _, hread⟩ := Except.bind_eq_ok_iff.mp hdone
        obtain ⟨answer, _, hanswer⟩ := Except.bind_eq_ok_iff.mp hread
        cases hanswer
        exact Or.inl (.anchored ha)
      | hold n path =>
        cases hdone
        replace ha : (s.hold n path).session.Anchored a := ha
        rw [hold] at ha
        cases hfind : s.forest.find n path with
        | none =>
          rw [hfind] at ha
          exact Or.inl (.anchored ha)
        | some m =>
          rw [hfind] at ha
          rcases ha with ha | ha
          · rcases (Marks.has_set s.held m a).mp ha with ha | ⟨rfl, _⟩
            · exact Or.inl (.anchored (.inl ha))
            · -- what a lookup finds hangs from where it started
              obtain ⟨k, hk, _⟩ := h.linked.find_eq_some_iff.mp hfind
              have hn : s.Alive n :=
                .anchored (.inl (List.all_eq_true.mp hheld n List.mem_cons_self))
              exact Or.inl (h.alive_of_ancestor? hn hk)
          · exact Or.inl (.anchored (.inr ha))
      | ask n query => cases hdone; exact Or.inl (.anchored ha)
      | logDump n channel level => cases hdone; exact Or.inl (.anchored ha)
      | setThreshold channel level => cases hdone; exact Or.inl (.anchored ha)
      | state => cases hdone; exact Or.inl (.anchored ha)
      | duplicate n way => cases hdone
      | _ => cases hkind

theorem parent_of_attempt {c : Command} {done : Performed} (hdone : s.attempt c = .ok done)
    {b p : NodeId} (hp : (done.session.forest.node b).parent = some p) :
    (s.forest.node b).parent = some p ∨ s.Alive b ∨ s.forest.size ≤ b := by
  rcases h.attempt_cases hdone with ⟨e, change, rfl, hheld, hchange, rfl⟩ | ⟨_, hgrown⟩
  · rcases h.linked.parent_of_edit (fun n hn => h.lt_size_of_held (hheld n hn)) hchange hp with
      hold | hnamed
    · exact Or.inl hold
    · exact Or.inr (Or.inl (.anchored (.inl (hheld b hnamed))))
  · by_cases hb : b < s.forest.size
    · rw [hgrown.parent_eq b hb] at hp
      exact Or.inl hp
    · exact Or.inr (Or.inr (Nat.le_of_not_lt hb))

/-- a command keeps alive what was alive, and new nodes -/
theorem alive_of_attempt {c : Command} {done : Performed} (hdone : s.attempt c = .ok done)
    {n : NodeId} (hn : done.session.Alive n) : s.Alive n ∨ s.forest.size ≤ n := by
  induction hn with
  | anchored ha => exact h.anchored_of_attempt hdone ha
  | @branch p b _ hb ih =>
    have hp := ((h.attempt hdone).linked.mem_branches_iff p b).mp hb
    rcases h.parent_of_attempt hdone hp with hold | hnew
    · have hps : p < s.forest.size := (h.linked.lt_size_of_parent hold).2
      have hpa : s.Alive p := ih.resolve_right (Nat.not_le_of_lt hps)
      exact Or.inl (.branch hpa ((h.linked.mem_branches_iff p b).mpr hold))
    · exact hnew

/-- no number is taken back -/
theorem size_le_of_attempt {c : Command} {done : Performed} (hdone : s.attempt c = .ok done) :
    s.forest.size ≤ done.session.forest.size := by
  rcases h.attempt_cases hdone with ⟨e, change, rfl, hheld, hchange, rfl⟩ | ⟨_, hgrown⟩
  · have he : ∀ n ∈ e.nodes, n < s.forest.size := fun n hn => h.lt_size_of_held (hheld n hn)
    exact Nat.le_of_eq (h.linked.edit he hchange).2.symm
  · exact hgrown.size_le

end WellFormed

/-! ## runs -/

/-- a node that once was and is not alive any longer -/
def Gone (s : Session) (n : NodeId) : Prop := n < s.forest.size ∧ ¬ s.Alive n

namespace Reachable

theorem gone_of_step {s : Session} (h : s.Reachable) {n : NodeId} (hn : s.Gone n) (c : Command) :
    (s.step c).2.Gone n := by
  obtain ⟨hsize, hdead⟩ := hn
  rw [step]
  cases hdone : s.attempt c with
  | error fault =>
    show s.settle.Gone n
    rw [h.settle_eq]
    exact ⟨hsize, hdead⟩
  | ok done =>
    show done.session.settle.Gone n
    refine ⟨?_, fun hn => ?_⟩
    · show n < (done.session.forest.settle done.session.living).size
      rw [Forest.size_settle]
      exact Nat.lt_of_lt_of_le hsize (h.wellFormed.size_le_of_attempt hdone)
    · have hlive := (h.wellFormed.attempt hdone).alive_settle_iff.mp hn
      rcases h.wellFormed.alive_of_attempt hdone hlive with hold | hnew
      · exact hdead hold
      · exact Nat.not_le_of_lt hsize hnew

/-- the dead stay dead -/
theorem gone_of_run {s : Session} (h : s.Reachable) {n : NodeId} (hn : s.Gone n)
    (commands : List Command) : (s.run commands).2.Gone n := by
  induction commands generalizing s with
  | nil => exact hn
  | cons c rest ih => exact ih (h.after_step c) (h.gone_of_step hn c)

end Reachable
end Session
end Arbor
