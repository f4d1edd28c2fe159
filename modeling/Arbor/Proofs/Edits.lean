import Arbor.Forest.Planting
import Arbor.Forest.Teardown
import Arbor.Proofs.Traversals
import Arbor.Session.Edit

/-!
# What edits do to each node

One equation for each operation says what every node is afterwards.  From the equations follows that
no operation breaks the links.

* `Forest.node_attach`, `Forest.node_detach`, `Forest.node_substitute`, `Linked.node_destroy`
* `Forest.ranked_of_graft`  a rank that still falls when a root is put below a node outside its
                            subtree;
* `Linked.attach`, `Linked.detach`, `Linked.substitute`, `Linked.destroy`  the links stay whole;
* `Linked.plantChain`, `Linked.plantBranches`  new nodes do no harm;
* `Linked.edited`   all that an edit can make of a forest;
* `Linked.edit`     so no edit of existing nodes breaks a link.
-/

namespace Arbor
namespace Forest

/-! ## the nodes afterwards -/

theorem node_update {f : Forest} {n : NodeId} (hn : n < f.size) (change : Node → Node)
    (m : NodeId) : (f.update n change).node m = if m = n then change (f.node m) else f.node m := by
  by_cases hm : m = n
  · rw [if_pos hm, hm, node_update_self hn]
  · rw [if_neg hm, node_update_of_ne (Ne.symm hm)]

theorem node_attach {f : Forest} {p b : NodeId} (hp : p < f.size) (hb : b < f.size) (m : NodeId) :
    (f.attach p b).node m =
      { f.node m with
        parent := if m = b then some p else (f.node m).parent
        branches := if m = p then (f.node m).branches ++ [b] else (f.node m).branches } := by
  rw [attach, node_update (by rwa [size_update]), node_update hb]
  split <;> split <;> rfl

theorem node_detach {f : Forest} {p b : NodeId} (hp : p < f.size) (hb : b < f.size) (m : NodeId) :
    (f.detach p b).node m =
      { f.node m with
        parent := if m = b then none else (f.node m).parent
        branches := if m = p then (f.node m).branches.erase b else (f.node m).branches } := by
  rw [detach, node_update (by rwa [size_update]), node_update hp]
  split <;> split <;> rfl

theorem node_substitute {f : Forest} {p old new : NodeId} (hp : p < f.size) (hold : old < f.size)
    (hnew : new < f.size) (m : NodeId) :
    (f.substitute p old new).node m =
      { f.node m with
        parent := if m = old then none else if m = new then some p else (f.node m).parent
        branches := if m = p then (f.node m).branches.replace old new else (f.node m).branches } := by
  rw [substitute, node_update (by rwa [size_update, size_update]),
    node_update (by rwa [size_update]), node_update hnew]
  split <;> split <;> split <;> rfl

theorem node_release (f : Forest) (n m : NodeId) :
    (f.release n).node m = if m = n then (f.node m).released else f.node m := by
  by_cases hn : n < f.size
  · exact node_update hn Node.released m
  · by_cases hm : m = n
    · have hout : f.size ≤ m := hm ▸ Nat.le_of_not_lt hn
      have hout' : (f.release n).size ≤ m := by rwa [release, size_update]
      rw [if_pos hm, node_of_size_le hout, node_of_size_le hout']
      rfl
    · rw [if_neg hm]
      exact node_update_of_ne (Ne.symm hm) _

theorem node_foldl_release (f : Forest) (ns : List NodeId) (m : NodeId) :
    (ns.foldl release f).node m = if m ∈ ns then (f.node m).released else f.node m := by
  induction ns generalizing f with
  | nil => rfl
  | cons n rest ih =>
    have htwice : (f.node m).released.released = (f.node m).released := rfl
    rw [List.foldl_cons, ih, node_release]
    by_cases hm : m = n
    · rw [if_pos hm, if_pos (List.mem_cons.mpr (Or.inl hm)), htwice, ite_self]
    · simp only [List.mem_cons, hm, false_or, if_false]

theorem links_plant (f : Forest) (name : String) (m : NodeId) :
    ((f.plant name).node m).parent = (f.node m).parent ∧
      ((f.plant name).node m).branches = (f.node m).branches := by
  rcases Nat.lt_trichotomy m f.size with hm | rfl | hm
  · rw [node_plant_of_lt hm]
    exact ⟨rfl, rfl⟩
  · rw [node_plant_self, node_of_size_le (Nat.le_refl _)]
    exact ⟨rfl, rfl⟩
  · rw [node_of_size_le (Nat.le_of_lt hm), node_of_size_le (by rw [size_plant]; exact hm)]
    exact ⟨rfl, rfl⟩

/-! ## sizes -/

@[simp] theorem size_attach (f : Forest) (p b : NodeId) : (f.attach p b).size = f.size := by
  rw [attach, size_update, size_update]

@[simp] theorem size_detach (f : Forest) (p b : NodeId) : (f.detach p b).size = f.size := by
  rw [detach, size_update, size_update]

@[simp] theorem size_substitute (f : Forest) (p old new : NodeId) :
    (f.substitute p old new).size = f.size := by
  rw [substitute, size_update, size_update, size_update]

@[simp] theorem size_foldl_release (f : Forest) (ns : List NodeId) :
    (ns.foldl release f).size = f.size := by
  induction ns generalizing f with
  | nil => rfl
  | cons n rest ih => rw [List.foldl_cons, ih, release, size_update]

/-- one node more for each name -/
theorem size_foldl_of_size_succ {grow : Forest → String → Forest}
    (hgrow : ∀ f name, (grow f name).size = f.size + 1) (f : Forest) (names : List String) :
    (names.foldl grow f).size = f.size + names.length := by
  induction names generalizing f with
  | nil => rfl
  | cons name rest ih =>
    rw [List.foldl_cons, ih, hgrow, List.length_cons]
    omega

theorem size_plantChain (f : Forest) (names : List String) :
    (f.plantChain names).size = f.size + names.length := by
  cases names with
  | nil => rfl
  | cons name rest =>
    have hgrow : ∀ (g : Forest) (name : String), (g.lengthen name).size = g.size + 1 :=
      fun g name => size_sprout g (g.size - 1) name
    rw [plantChain, size_foldl_of_size_succ hgrow, size_plant, List.length_cons]
    omega

theorem size_plantBranches (f : Forest) (p : NodeId) (names : List String) :
    (f.plantBranches p names).size = f.size + names.length := by
  rw [plantBranches, size_appendBranches, size_foldl_of_size_succ (size_plantBelow p)]

/-! ## a branch replaced -/

/-- the list before and after the entry that is replaced -/
theorem replace_eq_of_mem {bs : List NodeId} {old : NodeId} (hold : old ∈ bs) (new : NodeId) :
    ∃ before after, bs = before ++ old :: after ∧ bs.replace old new = before ++ new :: after := by
  obtain ⟨before, after, rfl, hout⟩ := List.eq_append_cons_of_mem hold
  refine ⟨before, after, rfl, ?_⟩
  rw [List.replace_append_right hout, List.replace_cons_self]

theorem mem_replace_iff {bs : List NodeId} {old new c : NodeId} (hnodup : bs.Nodup)
    (hold : old ∈ bs) : c ∈ bs.replace old new ↔ c = new ∨ c ∈ bs ∧ c ≠ old := by
  obtain ⟨before, after, rfl, hreplace⟩ := replace_eq_of_mem hold new
  rw [List.nodup_middle, List.nodup_cons, List.mem_append, not_or] at hnodup
  obtain ⟨⟨hbefore, hafter⟩, _⟩ := hnodup
  rw [hreplace]
  by_cases hc : c = old
  · simp [hc, hbefore, hafter]
  · simp [hc, or_left_comm]

theorem nodup_replace {bs : List NodeId} {old new : NodeId} (hnodup : bs.Nodup) (hold : old ∈ bs)
    (hnew : new ∉ bs) : (bs.replace old new).Nodup := by
  obtain ⟨before, after, rfl, hreplace⟩ := replace_eq_of_mem hold new
  rw [List.nodup_middle, List.nodup_cons] at hnodup
  rw [hreplace, List.nodup_middle, List.nodup_cons]
  refine ⟨fun hm => hnew ?_, hnodup.2⟩
  rcases List.mem_append.mp hm with hm | hm
  · exact List.mem_append_left _ hm
  · exact List.mem_append_right _ (List.mem_cons_of_mem old hm)

/-! ## what the checks let through -/

/-- A node is asked for its parent first, and only then the receiver for what is above it. -/
theorem attachable_node_cases (f : Forest) (p b : NodeId) :
    (∃ q, (f.node b).parent = some q ∧
      f.attachable p (.node b) = .error (.alreadyAttached (f.node b).name (f.node q).name)) ∨
    ((f.node b).parent = none ∧ f.under (· == b) p = true ∧
      f.attachable p (.node b) = .error (.ownSubtree (f.node b).name)) ∨
    ((f.node b).parent = none ∧ f.under (· == b) p = false ∧ f.attachable p (.node b) = .ok b) := by
  rw [attachable]
  cases hp : (f.node b).parent with
  | some q => exact Or.inl ⟨q, rfl, rfl⟩
  | none =>
    cases hunder : f.under (· == b) p with
    | true => exact Or.inr (Or.inl ⟨rfl, rfl, rfl⟩)
    | false => exact Or.inr (Or.inr ⟨rfl, rfl, rfl⟩)

theorem attachable_eq_ok_iff {f : Forest} {p b : NodeId} {v : Value} :
    f.attachable p v = .ok b ↔
      v = .node b ∧ (f.node b).parent = none ∧ f.under (· == b) p = false := by
  constructor
  · intro hok
    cases v with
    | node c =>
      rcases attachable_node_cases f p c with ⟨q, _, ha⟩ | ⟨_, _, ha⟩ | ⟨hroot, hunder, ha⟩
      · rw [ha] at hok
        cases hok
      · rw [ha] at hok
        cases hok
      · rw [ha] at hok
        cases hok
        exact ⟨rfl, hroot, hunder⟩
    | _ => cases hok
  · rintro ⟨rfl, hroot, hunder⟩
    rw [attachable, hroot]
    show (if f.under (· == b) p = true then _ else _) = _
    rw [hunder]
    rfl

theorem branch?_eq_some_iff {f : Forest} {p b : NodeId} {v : Value} :
    f.branch? p v = some b ↔ v = .node b ∧ b ∈ (f.node p).branches := by
  constructor
  · intro hb
    cases v with
    | node c =>
      rw [branch?] at hb
      split at hb
      · rename_i hc
        cases hb
        exact ⟨rfl, hc⟩
      · cases hb
    | _ => cases hb
  · rintro ⟨rfl, hb⟩
    rw [branch?, if_pos hb]

theorem addBranch_eq_ok_iff {f : Forest} {p : NodeId} {v : Value} {c : Change NodeId} :
    f.addBranch p v = .ok c ↔ ∃ b, f.attachable p v = .ok b ∧ c = .silent b (f.attach p b) := by
  rw [addBranch]
  cases f.attachable p v with
  | error e =>
    constructor
    · intro hc
      cases hc
    · rintro ⟨b, hb, _⟩
      cases hb
  | ok b =>
    constructor
    · intro hc
      cases hc
      exact ⟨b, rfl, rfl⟩
    · rintro ⟨_, hb, rfl⟩
      cases hb
      rfl

theorem edit_add {f : Forest} {p b : NodeId} (hb : f.attachable p (.node b) = .ok b) :
    f.edit (.add p (.node b)) = .ok (.silent (.node b) (f.attach p b)) := by
  rw [edit, addBranch_eq_ok_iff.mpr ⟨b, hb, rfl⟩]
  rfl

theorem removeBranch_cases (f : Forest) (p : NodeId) (v : Value) :
    f.removeBranch p v = ⟨none, f, [.nothingToRemove v p]⟩ ∨
      ∃ b, f.branch? p v = some b ∧ f.removeBranch p v = .silent (some b) (f.detach p b) := by
  rw [removeBranch]
  cases hb : f.branch? p v with
  | none => exact Or.inl rfl
  | some b => exact Or.inr ⟨b, rfl, rfl⟩

theorem replaceBranch_cases {f : Forest} {p : NodeId} {old new : Value} {c : Change (Option NodeId)}
    (hc : f.replaceBranch p old new = .ok c) :
    c.result = none ∧ c.forest = f ∨ ∃ b n, f.branch? p old = some b ∧ f.attachable p new = .ok n ∧
      c = .silent (some b) (f.substitute p b n) := by
  rw [replaceBranch] at hc
  cases hb : f.branch? p old with
  | none =>
    rw [hb] at hc
    cases hc
    exact Or.inl ⟨rfl, rfl⟩
  | some b =>
    rw [hb] at hc
    replace hc : (if new = .node b then _ else _) = Except.ok c := hc
    split at hc
    · cases hc
      exact Or.inl ⟨rfl, rfl⟩
    · cases hn : f.attachable p new with
      | error e => rw [hn] at hc; cases hc
      | ok n =>
        rw [hn] at hc
        cases hc
        exact Or.inr ⟨b, n, rfl, rfl, rfl⟩

theorem size_uproot (f : Forest) (n : NodeId) : (f.uproot n).forest.size = f.size := by
  rw [uproot]
  split
  · rfl
  · rename_i p hp
    show (f.removeBranch p (.node n)).forest.size = f.size
    rcases f.removeBranch_cases p (.node n) with hr | ⟨b, _, hr⟩
    · rw [hr]
    · rw [hr]
      exact size_detach f p b

theorem size_destroy (f : Forest) (n : NodeId) : (f.destroy n).forest.size = f.size := by
  show ((f.enumerate n ++ [n]).foldl release (f.uproot n).forest).size = f.size
  rw [size_foldl_release, size_uproot]

/-! ## ways up in a changed forest -/

/-- a node without branches is above no other node -/
theorem Linked.ancestor?_ne_of_no_branches {f : Forest} (h : f.Linked) {b : NodeId}
    (hb : (f.node b).branches = []) {n : NodeId} (hn : n ≠ b) (k : Nat) :
    f.ancestor? k n ≠ some b := by
  intro ha
  cases k with
  | zero => exact hn (Option.some.inj ha)
  | succ k =>
    obtain ⟨c, _, hc⟩ := ancestor?_succ_eq_some_iff.mp ha
    have hmem := (h.mem_branches_iff b c).mpr hc
    rw [hb] at hmem
    cases hmem

/-! ## what an edit makes of a forest -/

/-- what an edit makes of the nodes of a forest when it is carried out -/
inductive Edited (f : Forest) : Edit → Forest → Prop where
  | attached {p b : NodeId} : (f.node b).parent = none → (∀ k, f.ancestor? k p ≠ some b) →
    Edited f (.add p (.node b)) (f.attach p b)
  /-- nothing to remove -/
  | missed {p : NodeId} {v : Value} : Edited f (.remove p v) f
  | detached {p b : NodeId} : (f.node b).parent = some p →
    Edited f (.remove p (.node b)) (f.detach p b)
  /-- nothing to replace, or a branch that is to be replaced by itself -/
  | kept {p : NodeId} {old new : Value} : Edited f (.replace p old new) f
  | substituted {p b n : NodeId} : (f.node b).parent = some p → (f.node n).parent = none →
    (∀ k, f.ancestor? k p ≠ some n) →
    Edited f (.replace p (.node b) (.node n)) (f.substitute p b n)
  | set {n : NodeId} {name text : String} {v : Value} : v.stored = .ok text →
    Edited f (.setAttribute n name v) (f.setAttribute n name text)
  | unset {n : NodeId} {name : String} :
    Edited f (.removeAttribute n name) (f.removeAttribute n name)
  | tagged {n : NodeId} {t : String} : Edited f (.tag n t) (f.tag n t)
  | destroyed {n : NodeId} : Edited f (.destroy n) (f.destroy n).forest

/-! ## ranks -/

/-- no parent link is new -/
theorem ranked_of_parent_le {f g : Forest} (h : f.Linked)
    (hg : ∀ b p, (g.node b).parent = some p → (f.node b).parent = some p) :
    ∃ rank : NodeId → Nat, ∀ b p, (g.node b).parent = some p → rank p < rank b := by
  obtain ⟨rank, hrank⟩ := h.ranked
  exact ⟨rank, fun b p hp => hrank b p (hg b p hp)⟩

/-- One parent link is new, from a root `b` to a node `p` that is not below it.  The ranks of `b`
and of all below it are raised past that of `p`. -/
theorem ranked_of_graft {f g : Forest} (h : f.Linked) {p b : NodeId}
    (hroot : (f.node b).parent = none) (hfree : ∀ k, f.ancestor? k p ≠ some b)
    (hg : ∀ c q, (g.node c).parent = some q → (f.node c).parent = some q ∨ c = b ∧ q = p) :
    ∃ rank : NodeId → Nat, ∀ c q, (g.node c).parent = some q → rank q < rank c := by
  classical
  obtain ⟨rank, hrank⟩ := h.ranked
  refine ⟨fun c => if ∃ k, f.ancestor? k c = some b then rank c + rank p + 1 else rank c, ?_⟩
  intro c q hq
  show (if ∃ k, f.ancestor? k q = some b then _ else _) <
    if ∃ k, f.ancestor? k c = some b then _ else _
  rcases hg c q hq with hold | ⟨rfl, rfl⟩
  · have hlt := hrank c q hold
    have hsame : (∃ k, f.ancestor? k c = some b) ↔ ∃ k, f.ancestor? k q = some b := by
      constructor
      · rintro ⟨k, hk⟩
        cases k with
        | zero =>
          cases hk
          rw [hroot] at hold
          cases hold
        | succ k => exact ⟨k, by rwa [ancestor?_succ_of_parent hold] at hk⟩
      · rintro ⟨k, hk⟩
        exact ⟨k + 1, by rwa [ancestor?_succ_of_parent hold]⟩
    by_cases hup : ∃ k, f.ancestor? k q = some b
    · rw [if_pos hup, if_pos (hsame.mpr hup)]
      omega
    · rw [if_neg hup, if_neg (fun hc => hup (hsame.mp hc))]
      exact hlt
  · rw [if_neg (fun ⟨k, hk⟩ => hfree k hk), if_pos ⟨0, rfl⟩]
    omega

namespace Linked

variable {f : Forest} (h : f.Linked)
include h

/-- links are all that counts -/
theorem congr {g : Forest} (hparent : ∀ m, (g.node m).parent = (f.node m).parent)
    (hbranches : ∀ m, (g.node m).branches = (f.node m).branches) : g.Linked where
  mem_branches_iff p b := by rw [hbranches, hparent, h.mem_branches_iff]
  nodup_branches p := by rw [hbranches]; exact h.nodup_branches p
  ranked := ranked_of_parent_le h fun b p hp => by rwa [hparent] at hp

/-! ## branches by their parent link -/

theorem branch?_of_parent {p b : NodeId} (hp : (f.node b).parent = some p) :
    f.branch? p (.node b) = some b :=
  branch?_eq_some_iff.mpr ⟨rfl, (h.mem_branches_iff p b).mpr hp⟩

theorem removeBranch_of_parent {p b : NodeId} (hp : (f.node b).parent = some p) :
    f.removeBranch p (.node b) = .silent (some b) (f.detach p b) := by
  rw [removeBranch, h.branch?_of_parent hp]

theorem replaceBranch_of_parent {p old new : NodeId} (hp : (f.node old).parent = some p)
    (hnew : f.attachable p (.node new) = .ok new) :
    f.replaceBranch p (.node old) (.node new) =
      .ok (.silent (some old) (f.substitute p old new)) := by
  have hne : (Value.node new) ≠ .node old := by
    intro he
    cases he
    rw [(attachable_eq_ok_iff.mp hnew).2.1] at hp
    cases hp
  rw [replaceBranch, h.branch?_of_parent hp]
  show (if Value.node new = .node old then _ else _) = _
  rw [if_neg hne, hnew]

theorem edit_remove {p b : NodeId} (hp : (f.node b).parent = some p) :
    f.edit (.remove p (.node b)) = .ok (.silent (.node b) (f.detach p b)) := by
  show Except.ok ((f.removeBranch p (.node b)).map Answer.ofNode?) = _
  rw [h.removeBranch_of_parent hp]
  rfl

theorem edit_replace {p old new : NodeId} (hp : (f.node old).parent = some p)
    (hnew : f.attachable p (.node new) = .ok new) :
    f.edit (.replace p (.node old) (.node new)) =
      .ok (.silent (.node old) (f.substitute p old new)) := by
  rw [Forest.edit, h.replaceBranch_of_parent hp hnew]
  rfl

/-! ## attaching and detaching -/

theorem not_mem_branches_of_root {b : NodeId} (hroot : (f.node b).parent = none) (p : NodeId) :
    b ∉ (f.node p).branches := by
  rw [h.mem_branches_iff, hroot]
  exact (Option.some_ne_none p).symm

theorem attach {p b : NodeId} (hp : p < f.size) (hb : b < f.size)
    (hroot : (f.node b).parent = none) (hfree : ∀ k, f.ancestor? k p ≠ some b) :
    (f.attach p b).Linked where
  mem_branches_iff q c := by
    have hout := h.not_mem_branches_of_root hroot q
    rw [node_attach hp hb, node_attach hp hb]
    show c ∈ (if q = p then _ else _) ↔ (if c = b then _ else _) = some q
    by_cases hc : c = b
    · subst hc
      rw [if_pos rfl, Option.some.injEq]
      by_cases hq : q = p
      · simp [hq]
      · simp [hq, hout, Ne.symm hq]
    · rw [if_neg hc]
      split
      · simp [hc, h.mem_branches_iff]
      · exact h.mem_branches_iff q c
  nodup_branches q := by
    have hout := h.not_mem_branches_of_root hroot q
    rw [node_attach hp hb]
    show (if q = p then _ else _ : List NodeId).Nodup
    split
    · have hcons : (b :: (f.node q).branches).Nodup :=
        List.nodup_cons.mpr ⟨hout, h.nodup_branches q⟩
      exact (List.perm_append_singleton b _).nodup_iff.mpr hcons
    · exact h.nodup_branches q
  ranked := by
    refine ranked_of_graft h hroot hfree fun c q hq => ?_
    rw [node_attach hp hb] at hq
    replace hq : (if c = b then some p else (f.node c).parent) = some q := hq
    split at hq
    · rename_i hc
      exact Or.inr ⟨hc, (Option.some.inj hq).symm⟩
    · exact Or.inl hq

theorem detach {p b : NodeId} (hb : (f.node b).parent = some p) : (f.detach p b).Linked := by
  obtain ⟨hbs, hps⟩ := h.lt_size_of_parent hb
  refine ⟨fun q c => ?_, fun q => ?_, ranked_of_parent_le h fun c q hq => ?_⟩
  · rw [node_detach hps hbs, node_detach hps hbs]
    show c ∈ (if q = p then _ else _) ↔ (if c = b then _ else _) = some q
    by_cases hc : c = b
    · subst hc
      have hout : c ∉ (if q = p then (f.node q).branches.erase c else (f.node q).branches) := by
        split
        · rw [(h.nodup_branches q).mem_erase_iff]
          exact fun hm => hm.1 rfl
        · rename_i hq
          rw [h.mem_branches_iff, hb]
          exact fun hpq => hq (Option.some.inj hpq).symm
      rw [if_pos rfl]
      exact ⟨fun hm => absurd hm hout, fun hn => absurd hn (Option.some_ne_none q).symm⟩
    · rw [if_neg hc]
      split
      · rw [(h.nodup_branches q).mem_erase_iff, h.mem_branches_iff]
        exact ⟨fun hm => hm.2, fun hm => ⟨hc, hm⟩⟩
      · exact h.mem_branches_iff q c
  · rw [node_detach hps hbs]
    show (if q = p then _ else _ : List NodeId).Nodup
    split
    · exact (h.nodup_branches q).erase b
    · exact h.nodup_branches q
  · rw [node_detach hps hbs] at hq
    replace hq : (if c = b then none else (f.node c).parent) = some q := hq
    split at hq
    · cases hq
    · exact hq

theorem substitute {p old new : NodeId} (hold : (f.node old).parent = some p) (hnew : new < f.size)
    (hroot : (f.node new).parent = none) (hfree : ∀ k, f.ancestor? k p ≠ some new) :
    (f.substitute p old new).Linked := by
  obtain ⟨holds, hps⟩ := h.lt_size_of_parent hold
  have hbranch := (h.mem_branches_iff p old).mpr hold
  have hne : new ≠ old := by
    rintro rfl
    rw [hroot] at hold
    cases hold
  refine ⟨fun q c => ?_, fun q => ?_, ranked_of_graft h hroot hfree fun c q hq => ?_⟩
  · rw [node_substitute hps holds hnew, node_substitute hps holds hnew]
    show c ∈ (if q = p then _ else _) ↔ (if c = old then _ else if c = new then _ else _) = some q
    by_cases hq : q = p
    · rw [if_pos hq, hq, mem_replace_iff (h.nodup_branches p) hbranch, h.mem_branches_iff]
      by_cases hco : c = old
      · simp [hco, hne.symm]
      · by_cases hcn : c = new
        · simp [hcn, hne]
        · simp [hco, hcn]
    · rw [if_neg hq, h.mem_branches_iff]
      by_cases hco : c = old
      · rw [if_pos hco, hco, hold]
        exact ⟨fun hpq => absurd (Option.some.inj hpq).symm hq, fun hn => by cases hn⟩
      · rw [if_neg hco]
        by_cases hcn : c = new
        · rw [if_pos hcn, hcn, hroot]
          exact ⟨fun hn => (by cases hn), fun hpq => absurd (Option.some.inj hpq).symm hq⟩
        · rw [if_neg hcn]
  · rw [node_substitute hps holds hnew]
    show (if q = p then _ else _ : List NodeId).Nodup
    split
    · rename_i hq
      rw [hq]
      exact nodup_replace (h.nodup_branches p) hbranch (h.not_mem_branches_of_root hroot p)
    · exact h.nodup_branches q
  · rw [node_substitute hps holds hnew] at hq
    replace hq : (if c = old then none else if c = new then some p else (f.node c).parent) =
      some q := hq
    split at hq
    · cases hq
    · split at hq
      · rename_i hc
        exact Or.inr ⟨hc, (Option.some.inj hq).symm⟩
      · exact Or.inl hq

/-! ## destroying -/

theorem node_uproot (n m : NodeId) :
    (f.uproot n).forest.node m =
      { f.node m with
        parent := if m = n then none else (f.node m).parent
        branches := (f.node m).branches.erase n } := by
  have hother : (f.node n).parent ≠ some m → (f.node m).branches.erase n = (f.node m).branches := by
    intro hp
    exact List.erase_of_not_mem fun hm => hp ((h.mem_branches_iff m n).mp hm)
  rw [uproot]
  cases hp : (f.node n).parent with
  | none =>
    rw [hother (by rw [hp]; exact (Option.some_ne_none m).symm)]
    show f.node m = _
    split
    · rename_i hm
      rw [hm, ← hp]
    · rfl
  | some p =>
    obtain ⟨hns, hps⟩ := h.lt_size_of_parent hp
    show (f.removeBranch p (.node n)).forest.node m = _
    rw [h.removeBranch_of_parent hp]
    show (f.detach p n).node m = _
    rw [node_detach hps hns]
    by_cases hm : m = p
    · rw [if_pos hm]
    · rw [if_neg hm, hother (by rw [hp]; exact fun hpm => hm (Option.some.inj hpm).symm)]

/-- parting a node from its parent is nothing worth a notice -/
theorem notices_uproot (n : NodeId) : (f.uproot n).notices = [] := by
  rw [uproot]
  cases hp : (f.node n).parent with
  | none => rfl
  | some p =>
    show (f.removeBranch p (.node n)).notices = []
    rw [h.removeBranch_of_parent hp]
    rfl

theorem edit_destroy (n : NodeId) :
    f.edit (.destroy n) =
      .ok ⟨.number ((f.enumerate n).length + 1), (f.destroy n).forest,
        [.released ((f.enumerate n).length + 1) n]⟩ := by
  have hlength : (f.enumerate n ++ [n]).length = (f.enumerate n).length + 1 := by
    rw [List.length_append, List.length_singleton]
  show Except.ok (Change.mk (Answer.number (f.enumerate n ++ [n]).length) (f.destroy n).forest
    ((f.uproot n).notices ++ [.released (f.enumerate n ++ [n]).length n])) = _
  rw [h.notices_uproot, hlength]
  rfl

/-- the nodes that go keep their names only, the node they hung from loses one branch -/
theorem node_destroy {n : NodeId} (hn : n < f.size) (m : NodeId) :
    (∃ k, f.ancestor? k m = some n) ∧ (f.destroy n).forest.node m = (f.node m).released ∨
    (∀ k, f.ancestor? k m ≠ some n) ∧
      (f.destroy n).forest.node m = { f.node m with branches := (f.node m).branches.erase n } := by
  have hforest : (f.destroy n).forest =
      (f.enumerate n ++ [n]).foldl release (f.uproot n).forest := rfl
  have hmem : m ∈ f.enumerate n ++ [n] ↔ ∃ k, f.ancestor? k m = some n :=
    h.mem_enumerate_append_self_iff (Nat.zero_lt_of_lt hn)
  rw [hforest, node_foldl_release, h.node_uproot]
  by_cases hup : ∃ k, f.ancestor? k m = some n
  · exact Or.inl ⟨hup, if_pos (hmem.mpr hup)⟩
  · have hm : m ≠ n := fun he => hup ⟨0, congrArg some he⟩
    refine Or.inr ⟨fun k hk => hup ⟨k, hk⟩, ?_⟩
    rw [if_neg (fun hin => hup (hmem.mp hin)), if_neg hm]

theorem destroy {n : NodeId} (hn : n < f.size) : (f.destroy n).forest.Linked := by
  refine ⟨fun q c => ?_, fun q => ?_, ranked_of_parent_le h fun c q hq => ?_⟩
  · have hstep : ∀ k, f.ancestor? k q = some n → (f.node c).parent = some q →
        f.ancestor? (k + 1) c = some n := by
      intro k hk hp
      rwa [ancestor?_succ_of_parent hp]
    rcases h.node_destroy hn q with ⟨⟨k, hk⟩, hq⟩ | ⟨hq', hq⟩
    · -- nothing hangs from a released node, and what hung from it is released too
      rw [hq]
      rcases h.node_destroy hn c with ⟨_, hc⟩ | ⟨hc', hc⟩
      · rw [hc]
        exact ⟨fun hm => (by cases hm), fun hp => (by cases hp)⟩
      · rw [hc]
        exact ⟨fun hm => (by cases hm), fun hp => absurd (hstep k hk hp) (hc' (k + 1))⟩
    · rw [hq]
      show c ∈ (f.node q).branches.erase n ↔ _
      rw [(h.nodup_branches q).mem_erase_iff, h.mem_branches_iff]
      rcases h.node_destroy hn c with ⟨⟨k, hk⟩, hc⟩ | ⟨hc', hc⟩
      · rw [hc]
        refine ⟨fun ⟨hne, hp⟩ => ?_, fun hp => by cases hp⟩
        cases k with
        | zero => exact absurd (Option.some.inj hk) hne
        | succ k =>
          rw [ancestor?_succ_of_parent hp] at hk
          exact absurd hk (hq' k)
      · rw [hc]
        exact ⟨fun hm => hm.2, fun hp => ⟨fun he => hc' 0 (congrArg some he), hp⟩⟩
  · rcases h.node_destroy hn q with ⟨_, hq⟩ | ⟨_, hq⟩
    · rw [hq]
      exact List.nodup_nil
    · rw [hq]
      exact (h.nodup_branches q).erase n
  · rcases h.node_destroy hn c with ⟨_, hc⟩ | ⟨_, hc⟩
    · rw [hc] at hq
      cases hq
    · rwa [hc] at hq

/-! ## planting -/

theorem plant (name : String) : (f.plant name).Linked :=
  h.congr (fun m => (links_plant f name m).1) (fun m => (links_plant f name m).2)

theorem sprout {p : NodeId} (hp : p < f.size) (name : String) : (f.sprout p name).Linked := by
  have hplant := h.plant name
  have hfresh := node_plant_self f name
  have hne : p ≠ f.size := Nat.ne_of_lt hp
  have hb : f.size < (f.plant name).size := by rw [size_plant]; exact Nat.lt_succ_self _
  refine hplant.attach (Nat.lt_trans hp hb) hb ?_ ?_
  · rw [hfresh]
    rfl
  · refine hplant.ancestor?_ne_of_no_branches ?_ hne
    rw [hfresh]
    rfl

theorem plantChain (names : List String) : (f.plantChain names).Linked := by
  have hfold : ∀ (names : List String) (g : Forest), g.Linked → 0 < g.size →
      (names.foldl lengthen g).Linked := by
    intro names
    induction names with
    | nil => exact fun g hg _ => hg
    | cons name rest ih =>
      intro g hg hpos
      refine ih _ (hg.sprout (Nat.sub_lt hpos Nat.one_pos) name) ?_
      show 0 < (g.sprout (g.size - 1) name).size
      rw [size_sprout]
      exact Nat.succ_pos _
  cases names with
  | nil => exact h
  | cons name rest => exact hfold rest _ (h.plant name) (by rw [size_plant]; exact Nat.succ_pos _)

theorem plantBranches {p : NodeId} (hp : p < f.size) (names : List String) :
    (f.plantBranches p names).Linked := by
  rw [plantBranches_eq_foldl_sprout hp]
  induction names generalizing f with
  | nil => exact h
  | cons name rest ih =>
    have hp' : p < (f.sprout p name).size := by rw [size_sprout]; exact Nat.lt_succ_of_lt hp
    exact ih (h.sprout hp name) hp'

/-! ## edits -/

theorem attach_of_attachable {p b : NodeId} {v : Value} (hv : ∀ n ∈ v.nodes, n < f.size)
    (hb : f.attachable p v = .ok b) :
    b < f.size ∧ (f.node b).parent = none ∧ ∀ k, f.ancestor? k p ≠ some b := by
  obtain ⟨rfl, hroot, hunder⟩ := attachable_eq_ok_iff.mp hb
  exact ⟨hv b (List.mem_singleton_self b), hroot, h.under_beq_eq_false_iff.mp hunder⟩

/-- a change of one node that leaves its links alone -/
theorem update {n : NodeId} (hn : n < f.size) {change : Node → Node}
    (hchange : ∀ node,
      (change node).parent = node.parent ∧ (change node).branches = node.branches) :
    (f.update n change).Linked := by
  refine h.congr (fun m => ?_) (fun m => ?_)
  · rw [node_update hn]
    split
    · exact (hchange _).1
    · rfl
  · rw [node_update hn]
    split
    · exact (hchange _).2
    · rfl

/-- what an edit that is carried out has made of the nodes -/
theorem edited {e : Edit} {c : Change Answer} (he : ∀ n ∈ e.nodes, n < f.size)
    (hc : f.edit e = .ok c) : f.Edited e c.forest := by
  cases e with
  | add p v =>
    cases ha : f.addBranch p v with
    | error x => rw [Forest.edit, ha] at hc; cases hc
    | ok done =>
      rw [Forest.edit, ha] at hc
      cases hc
      obtain ⟨b, hb, rfl⟩ := addBranch_eq_ok_iff.mp ha
      have hv : ∀ n ∈ v.nodes, n < f.size := fun n hn => he n (List.mem_cons_of_mem p hn)
      obtain ⟨_, hroot, hfree⟩ := h.attach_of_attachable hv hb
      obtain ⟨rfl, _⟩ := attachable_eq_ok_iff.mp hb
      exact .attached hroot hfree
  | remove p v =>
    cases hc
    show f.Edited (.remove p v) (f.removeBranch p v).forest
    rcases f.removeBranch_cases p v with hr | ⟨b, hb, hr⟩
    · rw [hr]
      exact .missed
    · rw [hr]
      obtain ⟨rfl, hbranch⟩ := branch?_eq_some_iff.mp hb
      exact .detached ((h.mem_branches_iff p b).mp hbranch)
  | replace p old new =>
    cases ha : f.replaceBranch p old new with
    | error x => rw [Forest.edit, ha] at hc; cases hc
    | ok done =>
      rw [Forest.edit, ha] at hc
      cases hc
      show f.Edited (.replace p old new) done.forest
      rcases replaceBranch_cases ha with ⟨-, hsame⟩ | ⟨b, n, hb, hn, rfl⟩
      · rw [hsame]
        exact .kept
      · have hv : ∀ m ∈ new.nodes, m < f.size := fun m hm =>
          he m (List.mem_cons_of_mem p (List.mem_append_right old.nodes hm))
        obtain ⟨_, hroot, hfree⟩ := h.attach_of_attachable hv hn
        obtain ⟨rfl, _⟩ := attachable_eq_ok_iff.mp hn
        obtain ⟨rfl, hbranch⟩ := branch?_eq_some_iff.mp hb
        exact .substituted ((h.mem_branches_iff p b).mp hbranch) hroot hfree
  | setAttribute n name v =>
    cases hs : v.stored with
    | error x => rw [Forest.edit, storeAttribute, hs] at hc; cases hc
    | ok text =>
      rw [Forest.edit, storeAttribute, hs] at hc
      cases hc
      exact .set hs
  | removeAttribute n name => cases hc; exact .unset
  | tag n t => cases hc; exact .tagged
  | destroy n => cases hc; exact .destroyed

/-- an edit of existing nodes leaves the links whole and makes no node -/
theorem edit {e : Edit} {c : Change Answer} (he : ∀ n ∈ e.nodes, n < f.size)
    (hc : f.edit e = .ok c) : c.forest.Linked ∧ c.forest.size = f.size := by
  have hedited := h.edited he hc
  generalize c.forest = g at hedited ⊢
  cases hedited with
  | missed | kept => exact ⟨h, rfl⟩
  | attached hroot hfree =>
    exact ⟨h.attach (he _ List.mem_cons_self) (he _ (by simp [Edit.nodes, Value.nodes])) hroot hfree,
      size_attach _ _ _⟩
  | detached hp => exact ⟨h.detach hp, size_detach _ _ _⟩
  | substituted hp hroot hfree =>
    exact ⟨h.substitute hp (he _ (by simp [Edit.nodes, Value.nodes])) hroot hfree,
      size_substitute _ _ _ _⟩
  | set _ => exact ⟨h.update (he _ List.mem_cons_self) fun _ => ⟨rfl, rfl⟩, size_update _ _ _⟩
  | unset => exact ⟨h.update (he _ List.mem_cons_self) fun _ => ⟨rfl, rfl⟩, size_update _ _ _⟩
  | tagged => exact ⟨h.update (he _ List.mem_cons_self) fun _ => ⟨rfl, rfl⟩, size_update _ _ _⟩
  | destroyed => exact ⟨h.destroy (he _ List.mem_cons_self), size_destroy _ _⟩

end Linked
end Forest
end Arbor
