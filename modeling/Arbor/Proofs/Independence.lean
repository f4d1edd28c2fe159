import Arbor.Proofs.Frames
import Arbor.Proofs.Sessions
import Mathlib.Order.BooleanAlgebra.Set

/-!
# Edits of different trees

An edit reads and writes in the trees of the nodes that it names and nowhere else.  So what happened
to other trees before makes no difference to it, and edits that share no tree may change places.

* `Forest.Closed`, `Forest.trees`  regions that no link leads out of, as the trees of some nodes;
* `Forest.AgreeOn`                 two forests with the same nodes in a region;
* `Linked.edit_local`              an edit in a region comes out the same in both, and stays in it;
* `Reachable.step_local`           the same of whole steps, deaths and log lines included;
* `Reachable.disjoint_edits_commute`  edits of different trees in either order.
-/

namespace Arbor

/-! ## regions -/

namespace Forest

/-- no link leads into the region or out of it -/
def Closed (f : Forest) (region : Set NodeId) : Prop :=
  ∀ b p, (f.node b).parent = some p → (b ∈ region ↔ p ∈ region)

/-- the second forest has the nodes of the first one in the region -/
structure AgreeOn (region : Set NodeId) (f g : Forest) : Prop where
  size_eq : g.size = f.size
  node_eq : ∀ n ∈ region, g.node n = f.node n

/-- all nodes of the trees that the listed nodes stand in -/
def trees (f : Forest) (ns : List NodeId) : Set NodeId := {m | ∃ n ∈ ns, f.root m = f.root n}

theorem mem_trees {f : Forest} {ns : List NodeId} {n : NodeId} (hn : n ∈ ns) : n ∈ f.trees ns :=
  ⟨n, hn, rfl⟩

namespace Closed

variable {f : Forest} {region : Set NodeId}

theorem compl_iff : f.Closed regionᶜ ↔ f.Closed region :=
  forall₃_congr fun _ _ _ => not_iff_not

/-- what is below a node of the region is in the region, and nothing else is -/
theorem mem_of_ancestor? (hc : f.Closed region) {k : Nat} {m n : NodeId}
    (hk : f.ancestor? k m = some n) : m ∈ region ↔ n ∈ region := by
  induction k generalizing m with
  | zero =>
    cases hk
    exact Iff.rfl
  | succ k ih =>
    obtain ⟨p, hp, hup⟩ := exists_parent_of_ancestor?_succ hk
    rw [hc m p hp, ih hup]

end Closed

namespace Linked

variable {f : Forest} (h : f.Linked)
include h

theorem root_of_parent {b p : NodeId} (hp : (f.node b).parent = some p) : f.root b = f.root p :=
  (h.root_eq_and_depth_eq_of_ancestor? (ancestor?_succ_of_parent hp 0)).1

theorem closed_trees (ns : List NodeId) : f.Closed (f.trees ns) := by
  intro b p hp
  show (∃ n ∈ ns, f.root b = f.root n) ↔ ∃ n ∈ ns, f.root p = f.root n
  rw [h.root_of_parent hp]

end Linked

namespace AgreeOn

variable {region : Set NodeId} {f g : Forest}

theorem refl (region : Set NodeId) (f : Forest) : AgreeOn region f f := ⟨rfl, fun _ _ => rfl⟩

theorem trans {k : Forest} (hfg : AgreeOn region f g) (hgk : AgreeOn region g k) :
    AgreeOn region f k :=
  ⟨hgk.size_eq.trans hfg.size_eq, fun n hn => (hgk.node_eq n hn).trans (hfg.node_eq n hn)⟩

theorem mono {smaller : Set NodeId} (hsub : smaller ⊆ region) (h : AgreeOn region f g) :
    AgreeOn smaller f g := ⟨h.size_eq, fun n hn => h.node_eq n (hsub hn)⟩

/-! ## reading -/

section
variable (h : AgreeOn region f g) (hc : f.Closed region)
include h

theorem closed (hf : f.Linked) (hg : g.Linked) (hc : f.Closed region) : g.Closed region := by
  intro b p hp
  by_cases hb : b ∈ region
  · rw [h.node_eq b hb] at hp
    exact hc b p hp
  · refine iff_of_false hb fun hpr => hb ?_
    have hbranch := (hg.mem_branches_iff p b).mpr hp
    rw [h.node_eq p hpr, hf.mem_branches_iff] at hbranch
    exact (hc b p hbranch).mpr hpr

theorem branch?_eq {p : NodeId} (hp : p ∈ region) (v : Value) : g.branch? p v = f.branch? p v := by
  cases v with
  | node b =>
    unfold branch?
    simp only [h.node_eq p hp]
  | _ => rfl

theorem describe_eq (printable : Char → Bool) {v : Value} (hv : ∀ n ∈ v.nodes, n ∈ region) :
    g.describe printable v = f.describe printable v := by
  cases v with
  | node b =>
    show (g.node b).describe printable = (f.node b).describe printable
    rw [h.node_eq b (hv b (List.mem_singleton_self b))]
  | flag b => cases b <;> rfl
  | _ => rfl

include hc

theorem under_eq (test : NodeId → Bool) {n : NodeId} (hn : n ∈ region) :
    g.under test n = f.under test n := by
  have hclimb : ∀ k n, n ∈ region → g.climbsTo test k n = f.climbsTo test k n := by
    intro k
    induction k with
    | zero => exact fun n _ => rfl
    | succ k ih =>
      intro n hn
      rw [climbsTo, climbsTo, h.node_eq n hn]
      cases hp : (f.node n).parent with
      | none => rfl
      | some p => simp only [ih p ((hc n p hp).mp hn)]
  rw [under, under, h.size_eq]
  exact hclimb f.size n hn

theorem attachable_eq {p : NodeId} {v : Value} (hp : p ∈ region) (hv : ∀ n ∈ v.nodes, n ∈ region) :
    g.attachable p v = f.attachable p v := by
  cases v with
  | node b =>
    have hb : b ∈ region := hv b (List.mem_singleton_self b)
    unfold attachable
    simp only [h.node_eq b hb, h.under_eq hc _ hp]
    cases hq : (f.node b).parent with
    | none => rfl
    | some q => simp only [h.node_eq q ((hc b q hq).mp hb)]
  | _ => rfl

theorem enumerate_eq (hf : f.Linked) (hg : g.Linked) {n : NodeId} (hn : n ∈ region)
    (hsize : n < f.size) : g.enumerate n = f.enumerate n := by
  have hbelow : SameBelow f g n := by
    intro k m hk
    rw [h.node_eq m ((hc.mem_of_ancestor? hk).mpr hn)]
  exact hbelow.enumerate_eq hf hg h.size_eq (Nat.zero_lt_of_lt hsize)

/-- who dies in a closed region is decided in the region -/
theorem settle (anchored : Marks) :
    AgreeOn region (f.settle (f.living anchored)) (g.settle (g.living anchored)) := by
  have hliving : ∀ n ∈ region, (g.living anchored).has n = (f.living anchored).has n := by
    intro n hn
    rw [has_living, has_living, h.size_eq, h.under_eq hc _ hn]
  refine ⟨by rw [size_settle, size_settle, h.size_eq], fun n hn => ?_⟩
  rw [node_settle, node_settle, hliving n hn, h.node_eq n hn]
  have hparent : (f.node n).parent.filter (g.living anchored).has =
      (f.node n).parent.filter (f.living anchored).has := by
    cases hp : (f.node n).parent with
    | none => rfl
    | some p => rw [Option.filter_some, Option.filter_some, hliving p ((hc n p hp).mp hn)]
  rw [hparent]

end
end AgreeOn

/-! ## writing -/

/-- what two forests are after the same writes in a region; the first one was `f` before -/
structure Alongside (region : Set NodeId) (f f' g' : Forest) : Prop where
  inside : AgreeOn region f' g'
  outside : AgreeOn regionᶜ f f'

namespace Alongside

variable {region : Set NodeId} {f f' g' : Forest}

theorem start {g : Forest} (h : AgreeOn region f g) : Alongside region f f g := ⟨h, .refl _ f⟩

theorem update (h : Alongside region f f' g') {n : NodeId} (hn : n ∈ region)
    (change : Node → Node) : Alongside region f (f'.update n change) (g'.update n change) where
  inside := by
    have hsize : g'.size = f'.size := h.inside.size_eq
    refine ⟨by rw [size_update, size_update, hsize], fun m hm => ?_⟩
    by_cases hmn : n = m
    · subst hmn
      by_cases hlt : n < f'.size
      · rw [node_update_self hlt, node_update_self (hsize ▸ hlt), h.inside.node_eq n hm]
      · have hout : f'.size ≤ n := Nat.le_of_not_lt hlt
        rw [node_of_size_le (f := f'.update n change) (by rwa [size_update]),
          node_of_size_le (by rwa [size_update, hsize])]
    · rw [node_update_of_ne hmn, node_update_of_ne hmn, h.inside.node_eq m hm]
  outside := by
    refine h.outside.trans ⟨size_update f' n change, fun m hm => node_update_of_ne ?_ change⟩
    intro hnm
    exact hm (hnm ▸ hn)

theorem foldl_release (h : Alongside region f f' g') {ns : List NodeId}
    (hns : ∀ n ∈ ns, n ∈ region) :
    Alongside region f (ns.foldl release f') (ns.foldl release g') := by
  induction ns generalizing f' g' with
  | nil => exact h
  | cons n rest ih =>
    exact ih (h.update (hns n List.mem_cons_self) Node.released)
      fun m hm => hns m (List.mem_cons_of_mem n hm)

end Alongside
end Forest

/-! ## what comes of an edit -/

/-- the nodes that the text of a notice describes -/
def Notice.nodes : Notice → List NodeId
  | .nothingToRemove branch n => n :: branch.nodes
  | .nothingToReplace old n => n :: old.nodes
  | .released _ n => [n]

theorem Forest.AgreeOn.text_eq {region : Set NodeId} {f g : Forest} (h : AgreeOn region f g)
    (printable : Char → Bool) {notice : Notice} (hnotice : ∀ n ∈ notice.nodes, n ∈ region) :
    notice.text printable g = notice.text printable f := by
  cases notice with
  | nothingToRemove branch n =>
    have hbranch : g.describe printable branch = f.describe printable branch :=
      h.describe_eq printable fun m hm => hnotice m (List.mem_cons_of_mem n hm)
    unfold Notice.text
    simp only [hbranch, h.node_eq n (hnotice n List.mem_cons_self)]
  | nothingToReplace old n =>
    have hold : g.describe printable old = f.describe printable old :=
      h.describe_eq printable fun m hm => hnotice m (List.mem_cons_of_mem n hm)
    unfold Notice.text
    simp only [hold, h.node_eq n (hnotice n List.mem_cons_self)]
  | released count n =>
    unfold Notice.text
    simp only [h.node_eq n (hnotice n List.mem_cons_self)]

namespace Forest

/-- Outcomes in two forests of an operation that keeps to a region, the first one from `f`: the same
fault, or the same result and the same notices, about nodes of the region only. -/
inductive SameOutcome {α : Type} (region : Set NodeId) (f : Forest) :
    Except Fault (Change α) → Except Fault (Change α) → Prop where
  | refused (fault : Fault) : SameOutcome region f (.error fault) (.error fault)
  | done (result : α) {f' g' : Forest} {notices : List Notice} :
    Alongside region f f' g' → (∀ notice ∈ notices, ∀ n ∈ notice.nodes, n ∈ region) →
    SameOutcome region f (.ok ⟨result, f', notices⟩) (.ok ⟨result, g', notices⟩)

namespace SameOutcome

variable {α β : Type} {region : Set NodeId} {f : Forest}

theorem silent (result : α) {f' g' : Forest} (h : Alongside region f f' g') :
    SameOutcome region f (.ok (.silent result f')) (.ok (.silent result g')) :=
  .done result h fun _ hnotice => absurd hnotice List.not_mem_nil

/-- nothing is written, and one notice is given -/
theorem missed (result : α) {g : Forest} (h : AgreeOn region f g) {notice : Notice}
    (hnotice : ∀ n ∈ notice.nodes, n ∈ region) :
    SameOutcome region f (.ok ⟨result, f, [notice]⟩) (.ok ⟨result, g, [notice]⟩) := by
  refine .done result (.start h) fun other hother => ?_
  rw [List.mem_singleton.mp hother]
  exact hnotice

theorem map {o o' : Except Fault (Change α)} (h : SameOutcome region f o o') (rename : α → β) :
    SameOutcome region f (o >>= fun c => pure (c.map rename))
      (o' >>= fun c => pure (c.map rename)) := by
  cases h with
  | refused fault => exact .refused fault
  | done result hforests hnotices => exact .done (rename result) hforests hnotices

end SameOutcome

section
variable {region : Set NodeId} {f g : Forest} (h : AgreeOn region f g) (hc : f.Closed region)
include h

theorem removeBranch_local {p : NodeId} {v : Value} (hp : p ∈ region)
    (hv : ∀ n ∈ v.nodes, n ∈ region) :
    SameOutcome region f (.ok (f.removeBranch p v)) (.ok (g.removeBranch p v)) := by
  unfold removeBranch
  rw [h.branch?_eq hp]
  cases hb : f.branch? p v with
  | none => exact .missed none h (List.forall_mem_cons.mpr ⟨hp, hv⟩)
  | some b =>
    obtain ⟨rfl, _⟩ := branch?_eq_some_iff.mp hb
    have hbr : b ∈ region := hv b (List.mem_singleton_self b)
    exact .silent (some b) (((Alongside.start h).update hp _).update hbr _)

include hc

theorem addBranch_local {p : NodeId} {v : Value} (hp : p ∈ region)
    (hv : ∀ n ∈ v.nodes, n ∈ region) :
    SameOutcome region f (f.addBranch p v) (g.addBranch p v) := by
  unfold addBranch
  rw [h.attachable_eq hc hp hv]
  cases hb : f.attachable p v with
  | error fault => exact .refused fault
  | ok b =>
    obtain ⟨rfl, _⟩ := attachable_eq_ok_iff.mp hb
    have hbr : b ∈ region := hv b (List.mem_singleton_self b)
    exact .silent b (((Alongside.start h).update hbr _).update hp _)

theorem replaceBranch_local {p : NodeId} {old new : Value} (hp : p ∈ region)
    (hold : ∀ n ∈ old.nodes, n ∈ region) (hnew : ∀ n ∈ new.nodes, n ∈ region) :
    SameOutcome region f (f.replaceBranch p old new) (g.replaceBranch p old new) := by
  unfold replaceBranch
  rw [h.branch?_eq hp, h.attachable_eq hc hp hnew]
  cases hb : f.branch? p old with
  | none => exact .missed none h (List.forall_mem_cons.mpr ⟨hp, hold⟩)
  | some b =>
    obtain ⟨rfl, _⟩ := branch?_eq_some_iff.mp hb
    have hbr : b ∈ region := hold b (List.mem_singleton_self b)
    show SameOutcome region f (if new = .node b then _ else _) (if new = .node b then _ else _)
    by_cases hsame : new = .node b
    · rw [if_pos hsame, if_pos hsame]
      exact .silent none (.start h)
    · rw [if_neg hsame, if_neg hsame]
      cases ha : f.attachable p new with
      | error fault => exact .refused fault
      | ok c =>
        obtain ⟨rfl, _⟩ := attachable_eq_ok_iff.mp ha
        have hcr : c ∈ region := hnew c (List.mem_singleton_self c)
        exact .silent (some b)
          ((((Alongside.start h).update hcr _).update hp _).update hbr _)

theorem uproot_local {n : NodeId} (hn : n ∈ region) :
    SameOutcome region f (.ok (f.uproot n)) (.ok (g.uproot n)) := by
  unfold uproot
  rw [h.node_eq n hn]
  cases hp : (f.node n).parent with
  | none => exact .silent () (.start h)
  | some p =>
    have hv : ∀ m ∈ (Value.node n).nodes, m ∈ region := fun m hm => List.mem_singleton.mp hm ▸ hn
    exact (removeBranch_local h ((hc n p hp).mp hn) hv).map fun _ => ()

section
variable (hf : f.Linked) (hg : g.Linked)
include hf hg

theorem destroy_local {n : NodeId} (hn : n ∈ region) (hsize : n < f.size) :
    SameOutcome region f (.ok (f.destroy n)) (.ok (g.destroy n)) := by
  have hdoomed : ∀ m ∈ f.enumerate n ++ [n], m ∈ region := by
    intro m hm
    obtain ⟨k, hk⟩ :=
      (hf.mem_enumerate_append_self_iff (Nat.zero_lt_of_lt hsize)).mp hm
    exact (hc.mem_of_ancestor? hk).mpr hn
  have huproot := uproot_local h hc hn
  unfold destroy
  rw [h.enumerate_eq hc hf hg hn hsize]
  generalize f.uproot n = c at huproot ⊢
  generalize g.uproot n = c' at huproot ⊢
  cases huproot with
  | done result hforests hnotices =>
    refine .done _ (hforests.foldl_release hdoomed) fun notice hnotice m hm => ?_
    rcases List.mem_append.mp hnotice with hnotice | hnotice
    · exact hnotices notice hnotice m hm
    · rw [List.mem_singleton.mp hnotice] at hm
      exact List.mem_singleton.mp hm ▸ hn

/-- an edit in a region comes out the same whatever else there is, and leaves all else alone -/
theorem Linked.edit_local {e : Edit} (he : ∀ n ∈ e.nodes, n ∈ region)
    (hsize : ∀ n ∈ e.nodes, n < f.size) : SameOutcome region f (f.edit e) (g.edit e) := by
  cases e with
  | add p v =>
    have hadd := addBranch_local h hc (he p List.mem_cons_self)
      fun n hn => he n (List.mem_cons_of_mem p hn)
    exact hadd.map Answer.node
  | remove p v =>
    have hremove := removeBranch_local h (he p List.mem_cons_self)
      fun n hn => he n (List.mem_cons_of_mem p hn)
    exact hremove.map Answer.ofNode?
  | replace p old new =>
    have hreplace := replaceBranch_local h hc (he p List.mem_cons_self)
      (fun n hn => he n (List.mem_cons_of_mem p (List.mem_append_left new.nodes hn)))
      fun n hn => he n (List.mem_cons_of_mem p (List.mem_append_right old.nodes hn))
    exact hreplace.map Answer.ofNode?
  | setAttribute n name v =>
    rw [Forest.edit, Forest.edit, storeAttribute, storeAttribute]
    cases v.stored with
    | error fault => exact .refused fault
    | ok text => exact .silent Answer.nothing ((Alongside.start h).update (he n List.mem_cons_self) _)
  | removeAttribute n name =>
    exact .silent Answer.nothing ((Alongside.start h).update (he n List.mem_cons_self) _)
  | tag n t =>
    exact .silent Answer.nothing ((Alongside.start h).update (he n List.mem_cons_self) _)
  | destroy n =>
    have hdestroy := destroy_local h hc hf hg (he n List.mem_cons_self) (hsize n List.mem_cons_self)
    exact hdestroy.map Answer.number

end
end
end Forest

/-! ## steps -/

namespace Session

/-- the second session has the nodes of the first one in the region, and all else but nodes -/
structure AgreeOn (region : Set NodeId) (s t : Session) : Prop where
  forest : Forest.AgreeOn region s.forest t.forest
  held_eq : t.held = s.held
  saved_eq : t.saved = s.saved
  thresholds_eq : t.thresholds = s.thresholds

namespace AgreeOn

variable {region : Set NodeId} {s t : Session}

theorem refl (region : Set NodeId) (s : Session) : AgreeOn region s s :=
  ⟨.refl region s.forest, rfl, rfl, rfl⟩

theorem mono {smaller : Set NodeId} (hsub : smaller ⊆ region) (h : AgreeOn region s t) :
    AgreeOn smaller s t := ⟨h.forest.mono hsub, h.held_eq, h.saved_eq, h.thresholds_eq⟩

theorem settle (h : AgreeOn region s t) (hc : s.forest.Closed region) :
    AgreeOn region s.settle t.settle where
  forest := by
    have hanchored : t.anchored = s.anchored := by
      unfold anchored
      rw [h.held_eq, h.saved_eq]
    show Forest.AgreeOn region (s.forest.settle (s.forest.living s.anchored))
      (t.forest.settle (t.forest.living t.anchored))
    rw [hanchored]
    exact h.forest.settle hc s.anchored
  held_eq := h.held_eq
  saved_eq := h.saved_eq
  thresholds_eq := h.thresholds_eq

/-- Two sessions that one session leads to by the same changes in two separate regions, in either
order, are the same. -/
theorem diamond {region' : Set NodeId} {t' t₁ t₂ : Session} (hapart : ∀ n ∈ region, n ∉ region')
    (ht : AgreeOn regionᶜ s t) (ht' : AgreeOn region'ᶜ s t') (h₁ : AgreeOn region'ᶜ t t₁)
    (h₂ : AgreeOn regionᶜ t' t₂) (hsame : AgreeOn region t t₂) (hsame' : AgreeOn region' t' t₁) :
    t₁ = t₂ := by
  have hforest : t₁.forest = t₂.forest := by
    refine Forest.ext_node ?_ fun n => ?_
    · rw [hsame.forest.size_eq, h₁.forest.size_eq]
    · by_cases hn : n ∈ region
      · have hn' : n ∉ region' := hapart n hn
        rw [h₁.forest.node_eq n hn', hsame.forest.node_eq n hn]
      · by_cases hn' : n ∈ region'
        · rw [hsame'.forest.node_eq n hn', h₂.forest.node_eq n hn]
        · rw [h₁.forest.node_eq n hn', ht.forest.node_eq n hn, h₂.forest.node_eq n hn,
            ht'.forest.node_eq n hn']
  obtain ⟨f₁, held₁, saved₁, thresholds₁⟩ := t₁
  obtain ⟨f₂, held₂, saved₂, thresholds₂⟩ := t₂
  have hheld : held₁ = held₂ := h₁.held_eq.trans hsame.held_eq.symm
  have hsaved : saved₁ = saved₂ := h₁.saved_eq.trans hsame.saved_eq.symm
  have hthresholds : thresholds₁ = thresholds₂ := h₁.thresholds_eq.trans hsame.thresholds_eq.symm
  subst hforest hheld hsaved hthresholds
  rfl

/-- the lines about nodes of the region read the same -/
theorem log_adopt (h : AgreeOn region s t) {result : Answer} {f g : Forest}
    {notices : List Notice} (hfg : Forest.AgreeOn region f g)
    (hnotices : ∀ notice ∈ notices, ∀ n ∈ notice.nodes, n ∈ region) :
    (t.adopt ⟨result, g, notices⟩).log = (s.adopt ⟨result, f, notices⟩).log := by
  show (notices.flatMap fun notice =>
      t.thresholds.record .core debugLevel fun _ => notice.text isPrintable g) =
    notices.flatMap fun notice =>
      s.thresholds.record .core debugLevel fun _ => notice.text isPrintable f
  refine List.flatMap_congr fun notice hnotice => ?_
  rw [h.thresholds_eq, hfg.text_eq isPrintable (hnotices notice hnotice)]

end AgreeOn

namespace Reachable

variable {s t : Session} (h : s.Reachable) (ht : t.Reachable)
include h ht

/-- A step that edits in a region comes out the same whatever else there is: reply, log lines and
the region afterwards, with who died.  All else is as it was. -/
theorem step_local {region : Set NodeId} (hst : AgreeOn region s t) (hc : s.forest.Closed region)
    {e : Edit} (he : ∀ n ∈ e.nodes, n ∈ region) :
    (t.step (.edit e)).1 = (s.step (.edit e)).1 ∧
      AgreeOn region (s.step (.edit e)).2 (t.step (.edit e)).2 ∧
      AgreeOn regionᶜ s (s.step (.edit e)).2 := by
  have hrefused : AgreeOn region s.settle t.settle ∧ AgreeOn regionᶜ s s.settle := by
    refine ⟨hst.settle hc, ?_⟩
    rw [h.settle_eq]
    exact .refl _ s
  by_cases hheld : (Command.edit e).nodes.all s.held.has = true
  · have hheld' : (Command.edit e).nodes.all t.held.has = true := by rwa [hst.held_eq]
    have hsize : ∀ n ∈ e.nodes, n < s.forest.size := fun n hn =>
      h.wellFormed.lt_size_of_held (List.all_eq_true.mp hheld n hn)
    have hout := Forest.Linked.edit_local hst.forest hc h.linked ht.linked he hsize
    rw [step, step, attempt, attempt, if_pos hheld, if_pos hheld', perform, perform]
    cases hs : s.forest.edit e with
    | error fault =>
      rw [hs] at hout
      generalize t.forest.edit e = outcome at hout ⊢
      cases hout
      exact ⟨rfl, hrefused⟩
    | ok change =>
      have hlinked : change.forest.Linked := (h.linked.edit hsize hs).1
      rw [hs] at hout
      generalize t.forest.edit e = outcome at hout ⊢
      cases hout with
      | @done result f g notices hforests hnotices =>
        have hclosed : f.Closed region := Forest.Closed.compl_iff.mp
          (hforests.outside.closed h.linked hlinked (Forest.Closed.compl_iff.mpr hc))
        have hafter : AgreeOn region { s with forest := f } { t with forest := g } :=
          ⟨hforests.inside, hst.held_eq, hst.saved_eq, hst.thresholds_eq⟩
        have houtside : AgreeOn regionᶜ s { s with forest := f } :=
          ⟨hforests.outside, rfl, rfl, rfl⟩
        have hlog : (t.adopt ⟨result, g, notices⟩).log = (s.adopt ⟨result, f, notices⟩).log :=
          hst.log_adopt hforests.inside hnotices
        refine ⟨congrArg (Reply.mk (.ok result)) hlog, hafter.settle hclosed, ?_⟩
        have hsettle := houtside.settle (Forest.Closed.compl_iff.mpr hc)
        rw [h.settle_eq] at hsettle
        exact hsettle
  · have hheld' : ¬ (Command.edit e).nodes.all t.held.has = true := by rwa [hst.held_eq]
    rw [step, step, attempt, attempt, if_neg hheld, if_neg hheld']
    exact ⟨rfl, hrefused⟩

omit ht in
/-- After an edit in one region, one in another region goes as it would have gone before. -/
theorem step_after {region region' : Set NodeId} (hapart : ∀ n ∈ region', n ∉ region)
    (hc : s.forest.Closed region) (hc' : s.forest.Closed region') {e e' : Edit}
    (he : ∀ n ∈ e.nodes, n ∈ region) (he' : ∀ n ∈ e'.nodes, n ∈ region') :
    ((s.step (.edit e)).2.step (.edit e')).1 = (s.step (.edit e')).1 ∧
      AgreeOn region' (s.step (.edit e')).2 ((s.step (.edit e)).2.step (.edit e')).2 ∧
      AgreeOn region'ᶜ (s.step (.edit e)).2 ((s.step (.edit e)).2.step (.edit e')).2 := by
  have hnext := h.after_step (.edit e)
  have hkept : AgreeOn region' s (s.step (.edit e)).2 :=
    (h.step_local h (.refl region s) hc he).2.2.mono hapart
  have hclosed := hkept.forest.closed h.linked hnext.linked hc'
  obtain ⟨hreply, hinside, _⟩ := h.step_local hnext hkept hc' he'
  exact ⟨hreply, hinside, (hnext.step_local hnext (.refl region' _) hclosed he').2.2⟩

omit ht in
/-- Edits that name no nodes of one tree may change places: each is answered and logged as in the
other order, whether it is carried out or refused, and the session afterwards is the same. -/
theorem disjoint_edits_commute {e e' : Edit}
    (hapart : ∀ n ∈ e.nodes, ∀ n' ∈ e'.nodes, s.forest.root n ≠ s.forest.root n') :
    ∃ reply reply' last, s.run [.edit e, .edit e'] = ([reply, reply'], last) ∧
      s.run [.edit e', .edit e] = ([reply', reply], last) := by
  have htrees : ∀ m ∈ s.forest.trees e.nodes, m ∉ s.forest.trees e'.nodes := by
    intro m hm hm'
    obtain ⟨n, hn, hroot⟩ := hm
    obtain ⟨n', hn', hroot'⟩ := hm'
    exact hapart n hn n' hn' (hroot.symm.trans hroot')
  have hc := h.linked.closed_trees e.nodes
  have hc' := h.linked.closed_trees e'.nodes
  have he : ∀ n ∈ e.nodes, n ∈ s.forest.trees e.nodes := fun n => Forest.mem_trees
  have he' : ∀ n ∈ e'.nodes, n ∈ s.forest.trees e'.nodes := fun n => Forest.mem_trees
  -- the two orders: `e` then `e'`, and `e'` then `e`
  obtain ⟨hreply', hsame', hkept'⟩ := h.step_after (fun m hm' hm => htrees m hm hm') hc hc' he he'
  obtain ⟨hreply, hsame, hkept⟩ := h.step_after htrees hc' hc he' he
  have hfirst := (h.step_local h (.refl _ s) hc he).2.2
  have hfirst' := (h.step_local h (.refl _ s) hc' he').2.2
  have hlast := AgreeOn.diamond htrees hfirst hfirst' hkept' hkept hsame hsame'
  refine ⟨(s.step (.edit e)).1, (s.step (.edit e')).1,
    ((s.step (.edit e)).2.step (.edit e')).2, ?_, ?_⟩
  · show ([(s.step (.edit e)).1, ((s.step (.edit e)).2.step (.edit e')).1], _) = _
    rw [hreply']
    rfl
  · show ([(s.step (.edit e')).1, ((s.step (.edit e')).2.step (.edit e)).1], _) = _
    rw [hreply, hlast]
    rfl

end Reachable

/-- two trees of two nodes each, and a node that stands alone -/
def copses : Session :=
  (start.run [.create "oak", .fan 0 "acorn" 1, .create "elm", .fan 2 "bud" 1, .create "ash"]).2

theorem reachable_copses : copses.Reachable := ⟨_, rfl⟩

/-- destroying in one tree and replacing in the other -/
theorem disjoint_edits_commute_copses :
    (copses.Reachable ∧ ∀ n ∈ (Edit.destroy 1).nodes,
      ∀ n' ∈ (Edit.replace 2 (.node 3) (.node 4)).nodes,
        copses.forest.root n ≠ copses.forest.root n') ∧
      ∃ reply reply' last,
        copses.run [.edit (.destroy 1), .edit (.replace 2 (.node 3) (.node 4))] =
          ([reply, reply'], last) ∧
        copses.run [.edit (.replace 2 (.node 3) (.node 4)), .edit (.destroy 1)] =
          ([reply', reply], last) := by
  have hapart : ∀ n ∈ (Edit.destroy 1).nodes,
      ∀ n' ∈ (Edit.replace 2 (.node 3) (.node 4)).nodes,
        copses.forest.root n ≠ copses.forest.root n' := by decide +kernel
  exact ⟨⟨reachable_copses, hapart⟩, Reachable.disjoint_edits_commute reachable_copses hapart⟩

end Session
end Arbor
