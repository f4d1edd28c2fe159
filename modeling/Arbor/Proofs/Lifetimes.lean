import Arbor.Proofs.Edits
import Arbor.Session.Basic

/-!
# Lifetimes in a linked forest

The marks of the living are computed along the way up.  They mark what is alive: the anchored nodes,
their branches, the branches of those and so on.  Settling lets go of the rest and of the links to
it.

* `Session.Alive`          the nodes that anchors keep, by branches;
* `Linked.has_living_iff`  the marks, by parent links;
* `Linked.settle`          letting go of what is not marked leaves the links whole;
* `Forest.settle_settle_of_imp`  there is nothing to let go of twice;
* `Session.alive_iff`      the living nodes of a session are those below its anchors.
-/

namespace Arbor

/-! ## marks -/

namespace Marks

theorem has_set (marks : Marks) (n m : NodeId) :
    (marks.set n true).has m = true ↔ marks.has m = true ∨ m = n ∧ n < marks.size := by
  have hget : (marks.set n true)[m]? = if n = m then (if n < marks.size then some true else none)
      else marks[m]? := Array.getElem?_setIfInBounds
  rw [has, hget]
  by_cases hm : n = m
  · subst hm
    rw [if_pos rfl]
    by_cases hn : n < marks.size
    · simp [hn]
    · simp [hn, has]
  · rw [if_neg hm]
    simp [has, Ne.symm hm]

theorem has_append_replicate (marks : Marks) (k n : Nat) :
    Marks.has (marks ++ Array.replicate k true) n = true ↔
      marks.has n = true ∨ marks.size ≤ n ∧ n < marks.size + k := by
  rw [has, Array.getElem?_append]
  by_cases hn : n < marks.size
  · rw [if_pos hn]
    exact ⟨Or.inl, fun hm => hm.resolve_right fun hm => Nat.not_lt_of_le hm.1 hn⟩
  · have hout : marks.has n = false := by rw [has, Array.getElem?_eq_none (Nat.le_of_not_lt hn)]; rfl
    rw [if_neg hn, Array.getElem?_replicate, hout]
    by_cases hk : n - marks.size < k
    · have hin : marks.size ≤ n ∧ n < marks.size + k := by omega
      simp [hk, hin]
    · have hin : ¬ (marks.size ≤ n ∧ n < marks.size + k) := by omega
      simp [hk, hin]

@[simp] theorem size_set (marks : Marks) (n : NodeId) (flag : Bool) :
    (marks.set n flag).size = marks.size := Array.size_setIfInBounds

theorem size_foldl_set (marks : Marks) (ns : List NodeId) :
    (ns.foldl (fun marks n => marks.set n true) marks).size = marks.size := by
  induction ns generalizing marks with
  | nil => rfl
  | cons n rest ih => rw [List.foldl_cons, ih, size_set]

theorem has_foldl_set (marks : Marks) (ns : List NodeId) (m : NodeId) :
    (ns.foldl (fun marks n => marks.set n true) marks).has m = true ↔
      marks.has m = true ∨ m ∈ ns ∧ m < marks.size := by
  induction ns generalizing marks with
  | nil => simp
  | cons n rest ih =>
    rw [List.foldl_cons, ih, has_set, size_set, List.mem_cons]
    constructor
    · rintro ((hm | ⟨rfl, hm⟩) | ⟨hm, hlt⟩)
      · exact Or.inl hm
      · exact Or.inr ⟨Or.inl rfl, hm⟩
      · exact Or.inr ⟨Or.inr hm, hlt⟩
    · rintro (hm | ⟨rfl | hm, hlt⟩)
      · exact Or.inl (Or.inl hm)
      · exact Or.inl (Or.inr ⟨rfl, hlt⟩)
      · exact Or.inr ⟨hm, hlt⟩

end Marks

/-! ## the living and the settled forest -/

namespace Forest

theorem ext_node {f g : Forest} (hsize : f.size = g.size) (hnode : ∀ n, f.node n = g.node n) :
    f = g := by
  obtain ⟨xs⟩ := f
  obtain ⟨ys⟩ := g
  congr 1
  apply Array.ext hsize
  intro i hx hy
  have hi := hnode i
  simpa [node, Array.getElem?_eq_getElem hx, Array.getElem?_eq_getElem hy] using hi

theorem has_living (f : Forest) (anchored : Marks) (n : NodeId) :
    (f.living anchored).has n = (decide (n < f.size) && f.under anchored.has n) := by
  rw [living, Marks.has, Array.getElem?_map]
  by_cases hn : n < f.size
  · simp [hn]
  · simp [hn]

@[simp] theorem size_settle (f : Forest) (living : Marks) : (f.settle living).size = f.size :=
  Array.size_mapIdx

theorem node_settle (f : Forest) (living : Marks) (n : NodeId) :
    (f.settle living).node n =
      if living.has n then { f.node n with parent := (f.node n).parent.filter living.has }
      else (f.node n).remains := by
  by_cases hn : n < f.size
  · have hn' : n < f.nodes.size := hn
    simp [node, settle, hn']
  · rw [node_of_size_le (Nat.le_of_not_lt hn),
      node_of_size_le (by rw [size_settle]; exact Nat.le_of_not_lt hn)]
    split <;> rfl

theorem parent_of_settle {f : Forest} {living : Marks} {b p : NodeId}
    (hp : ((f.settle living).node b).parent = some p) :
    (f.node b).parent = some p ∧ living.has b = true ∧ living.has p = true := by
  rw [node_settle] at hp
  split at hp
  · rename_i hb
    obtain ⟨hp, hlive⟩ := Option.filter_eq_some_iff.mp hp
    exact ⟨hp, hb, hlive⟩
  · cases hp

theorem ancestor?_of_parent_le {f g : Forest}
    (hg : ∀ b p, (g.node b).parent = some p → (f.node b).parent = some p) {k : Nat} {n a : NodeId}
    (ha : g.ancestor? k n = some a) : f.ancestor? k n = some a := by
  induction k generalizing n with
  | zero => exact ha
  | succ k ih =>
    obtain ⟨p, hp, hup⟩ := exists_parent_of_ancestor?_succ ha
    rw [ancestor?_succ_of_parent (hg n p hp), ih hup]

theorem settle_congr (f : Forest) {living kept : Marks} (h : ∀ n, living.has n = kept.has n) :
    f.settle living = f.settle kept := by
  have hmarks : living.has = kept.has := funext h
  refine ext_node (by rw [size_settle, size_settle]) fun n => ?_
  rw [node_settle, node_settle, hmarks]

/-- letting go of some of the dead first makes no difference in the end -/
theorem settle_settle_of_imp (f : Forest) {living kept : Marks}
    (h : ∀ n, living.has n = true → kept.has n = true) :
    (f.settle kept).settle living = f.settle living := by
  refine ext_node (by rw [size_settle, size_settle, size_settle]) fun n => ?_
  rw [node_settle (f.settle kept), node_settle, node_settle]
  by_cases hn : living.has n = true
  · have hboth : (fun p => kept.has p && living.has p) = living.has := by
      funext p
      rw [Bool.and_eq_right_iff_imp]
      exact h p
    simp [hn, h n hn, Option.filter_filter, hboth]
  · rw [if_neg hn, if_neg hn]
    split <;> rfl

namespace Linked

variable {f : Forest} (h : f.Linked)
include h

theorem has_living_iff {anchored : Marks} {n : NodeId} :
    (f.living anchored).has n = true ↔
      n < f.size ∧ ∃ k a, f.ancestor? k n = some a ∧ anchored.has a = true := by
  rw [has_living, Bool.and_eq_true, decide_eq_true_iff, h.under_iff]

/-- branches of the living live -/
theorem has_living_of_parent {anchored : Marks} {b p : NodeId} (hp : (f.node b).parent = some p)
    (hlive : (f.living anchored).has p = true) : (f.living anchored).has b = true := by
  obtain ⟨_, k, a, hk, ha⟩ := h.has_living_iff.mp hlive
  exact h.has_living_iff.mpr ⟨(h.lt_size_of_parent hp).1, k + 1, a,
    by rwa [ancestor?_succ_of_parent hp], ha⟩

theorem settle (anchored : Marks) : (f.settle (f.living anchored)).Linked := by
  refine ⟨fun p b => ?_, fun p => ?_, ranked_of_parent_le h fun b p hp => (parent_of_settle hp).1⟩
  · constructor
    · intro hb
      rw [node_settle] at hb
      split at hb
      · rename_i hlive
        have hp := (h.mem_branches_iff p b).mp hb
        rw [node_settle, if_pos (h.has_living_of_parent hp hlive)]
        exact Option.filter_eq_some_iff.mpr ⟨hp, hlive⟩
      · cases hb
    · intro hb
      obtain ⟨hp, _, hlive⟩ := parent_of_settle hb
      rw [node_settle, if_pos hlive]
      exact (h.mem_branches_iff p b).mpr hp
  · rw [node_settle]
    split
    · exact h.nodup_branches p
    · exact List.nodup_nil

/-- the way up from the living to an anchor is kept -/
theorem ancestor?_settle {anchored : Marks} {k : Nat} {n a : NodeId} (hn : n < f.size)
    (hk : f.ancestor? k n = some a) (ha : anchored.has a = true) :
    (f.settle (f.living anchored)).ancestor? k n = some a := by
  induction k generalizing n with
  | zero => exact hk
  | succ k ih =>
    obtain ⟨p, hp, hup⟩ := exists_parent_of_ancestor?_succ hk
    have hps := (h.lt_size_of_parent hp).2
    have hlive : (f.living anchored).has p = true := h.has_living_iff.mpr ⟨hps, k, a, hup, ha⟩
    have hp' : ((f.settle (f.living anchored)).node n).parent = some p := by
      rw [node_settle, if_pos (h.has_living_of_parent hp hlive)]
      exact Option.filter_eq_some_iff.mpr ⟨hp, hlive⟩
    rw [ancestor?_succ_of_parent hp']
    exact ih hps hup

theorem living_settle (anchored : Marks) :
    (f.settle (f.living anchored)).living anchored = f.living anchored := by
  have hs := h.settle anchored
  show (Array.range (f.settle (f.living anchored)).size).map _ = (Array.range f.size).map _
  rw [size_settle]
  refine Array.map_congr_left fun n hn => ?_
  rw [Bool.eq_iff_iff, hs.under_iff, h.under_iff]
  constructor
  · rintro ⟨k, a, hk, ha⟩
    exact ⟨k, a, ancestor?_of_parent_le (fun b p hp => (parent_of_settle hp).1) hk, ha⟩
  · rintro ⟨k, a, hk, ha⟩
    exact ⟨k, a, h.ancestor?_settle (Array.mem_range.mp hn) hk ha, ha⟩

end Linked
end Forest

/-! ## the living of a session -/

namespace Session

/-- a node that is held or that something saved refers to -/
def Anchored (s : Session) (n : NodeId) : Prop :=
  s.held.has n = true ∨ ∃ entry ∈ s.saved, n ∈ entry.2.anchors

/-- anchors keep what they anchor and all branches below it -/
inductive Alive (s : Session) : NodeId → Prop where
  | anchored {n : NodeId} : s.Anchored n → Alive s n
  | branch {p b : NodeId} : Alive s p → b ∈ (s.forest.node p).branches → Alive s b

theorem has_anchored_iff (s : Session) (n : NodeId) :
    s.anchored.has n = true ↔
      s.held.has n = true ∨ (∃ entry ∈ s.saved, n ∈ entry.2.anchors) ∧ n < s.held.size := by
  have hfold : ∀ (saved : Dictionary Saved) (marks : Marks),
      (saved.foldl (fun marks entry =>
          entry.2.anchors.foldl (fun marks n => marks.set n true) marks) marks).has n = true ↔
        marks.has n = true ∨ (∃ entry ∈ saved, n ∈ entry.2.anchors) ∧ n < marks.size := by
    intro saved
    induction saved with
    | nil => simp
    | cons entry rest ih =>
      intro marks
      rw [List.foldl_cons, ih, Marks.has_foldl_set, Marks.size_foldl_set]
      simp only [List.exists_mem_cons_iff]
      constructor
      · rintro ((hm | ⟨hm, hlt⟩) | ⟨hm, hlt⟩)
        · exact Or.inl hm
        · exact Or.inr ⟨Or.inl hm, hlt⟩
        · exact Or.inr ⟨Or.inr hm, hlt⟩
      · rintro (hm | ⟨hm | hm, hlt⟩)
        · exact Or.inl (Or.inl hm)
        · exact Or.inl (Or.inr ⟨hm, hlt⟩)
        · exact Or.inr ⟨hm, hlt⟩
  exact hfold s.saved s.held

/-- what is alive hangs from an anchor -/
theorem alive_iff {s : Session} (h : s.forest.Linked) {n : NodeId} :
    s.Alive n ↔ ∃ k a, s.forest.ancestor? k n = some a ∧ s.Anchored a := by
  constructor
  · intro hn
    induction hn with
    | anchored ha => exact ⟨0, _, rfl, ha⟩
    | branch _ hb ih =>
      obtain ⟨k, a, hk, ha⟩ := ih
      have hp := (h.mem_branches_iff _ _).mp hb
      exact ⟨k + 1, a, by rwa [Forest.ancestor?_succ_of_parent hp], ha⟩
  · rintro ⟨k, a, hk, ha⟩
    induction k generalizing n with
    | zero =>
      cases hk
      exact Alive.anchored ha
    | succ k ih =>
      obtain ⟨p, hp, hup⟩ := Forest.exists_parent_of_ancestor?_succ hk
      exact Alive.branch (ih hup) ((h.mem_branches_iff p n).mpr hp)

end Session
end Arbor
