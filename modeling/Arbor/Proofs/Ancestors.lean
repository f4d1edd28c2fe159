import Arbor.Forest.Lineage
import Mathlib.Data.List.Nodup

/-!
# Ancestors in a linked forest

The two directions of a link are stored apart.  In a linked forest they agree, no branch is listed
twice, and no way up comes back to where it was.

* `Forest.ancestor?`   the node that a number of parent links leads to;
* `Forest.Linked`      the invariant of every forest that commands can make;
* `Linked.ancestor?_inj`    no way up meets a node twice;
* `Linked.lt_size_of_ancestor?`  no way up is longer than the number of nodes;
* `Linked.getElem?_lineage`  the lineage is the whole way up, one node for each number of links;
* `Linked.ancestor?_depth`   at its end stands the root, which has no parent.
-/

namespace Arbor
namespace Forest

/-! ## following parent links -/

/-- the node that exactly so many parent links lead to -/
def ancestor? (f : Forest) : Nat → NodeId → Option NodeId
  | 0, n => some n
  | k + 1, n => (f.node n).parent.bind (ancestor? f k)

@[simp] theorem ancestor?_zero (f : Forest) (n : NodeId) : f.ancestor? 0 n = some n := rfl

theorem ancestor?_succ_of_parent {f : Forest} {n p : NodeId} (h : (f.node n).parent = some p)
    (k : Nat) : f.ancestor? (k + 1) n = f.ancestor? k p := by
  show (f.node n).parent.bind (f.ancestor? k) = f.ancestor? k p
  rw [h]
  rfl

theorem ancestor?_succ_of_root {f : Forest} {n : NodeId} (h : (f.node n).parent = none)
    (k : Nat) : f.ancestor? (k + 1) n = none := by
  show (f.node n).parent.bind (f.ancestor? k) = none
  rw [h]
  rfl

theorem ancestor?_add (f : Forest) (j k : Nat) (n : NodeId) :
    f.ancestor? (j + k) n = (f.ancestor? j n).bind (f.ancestor? k) := by
  induction j generalizing n with
  | zero => rw [Nat.zero_add]; rfl
  | succ j ih =>
    rw [Nat.succ_add]
    cases h : (f.node n).parent with
    | none => rw [ancestor?_succ_of_root h, ancestor?_succ_of_root h]; rfl
    | some p => rw [ancestor?_succ_of_parent h, ancestor?_succ_of_parent h, ih]

/-- a way up starts with a parent link -/
theorem exists_parent_of_ancestor?_succ {f : Forest} {k : Nat} {n a : NodeId}
    (h : f.ancestor? (k + 1) n = some a) :
    ∃ p, (f.node n).parent = some p ∧ f.ancestor? k p = some a := by
  cases hp : (f.node n).parent with
  | none =>
    rw [ancestor?_succ_of_root hp] at h
    cases h
  | some p =>
    rw [ancestor?_succ_of_parent hp] at h
    exact ⟨p, rfl, h⟩

/-- the last link of the way up, where `ancestor?` itself follows the first one -/
theorem ancestor?_succ_eq_some_iff {f : Forest} {k : Nat} {m a : NodeId} :
    f.ancestor? (k + 1) m = some a ↔
      ∃ b, f.ancestor? k m = some b ∧ (f.node b).parent = some a := by
  rw [ancestor?_add, Option.bind_eq_some_iff]
  have hone : ∀ b, f.ancestor? 1 b = (f.node b).parent := fun b => Option.bind_fun_some _
  simp only [hone]

/-- a shorter way up does not end before a longer one -/
theorem exists_ancestor?_of_le {f : Forest} {j k : Nat} {n a : NodeId} (hjk : j ≤ k)
    (h : f.ancestor? k n = some a) :
    ∃ b, f.ancestor? j n = some b ∧ f.ancestor? (k - j) b = some a := by
  have hk : k = j + (k - j) := by omega
  rw [hk, ancestor?_add] at h
  exact Option.bind_eq_some_iff.mp h

/-- Where parents changed only below a node, ways up that do not lead through it stay. -/
theorem ancestor?_eq_of_not_below {f g : Forest} {n : NodeId}
    (hparent : ∀ m, (∀ j, f.ancestor? j m ≠ some n) → (g.node m).parent = (f.node m).parent)
    {m : NodeId} (hout : ∀ j, f.ancestor? j m ≠ some n) (k : Nat) :
    g.ancestor? k m = f.ancestor? k m := by
  induction k generalizing m with
  | zero => rfl
  | succ k ih =>
    cases hp : (f.node m).parent with
    | none => rw [ancestor?_succ_of_root hp, ancestor?_succ_of_root ((hparent m hout).trans hp)]
    | some p =>
      rw [ancestor?_succ_of_parent hp, ancestor?_succ_of_parent ((hparent m hout).trans hp)]
      refine ih fun j hj => hout (j + 1) ?_
      rw [ancestor?_succ_of_parent hp, hj]

/-! ## the way up as a list -/

theorem getElem?_climb (f : Forest) (k i : Nat) (n : NodeId) :
    (f.climb k n)[i]? = if i ≤ k then f.ancestor? i n else none := by
  induction k generalizing i n with
  | zero =>
    cases i with
    | zero => rfl
    | succ i => simp [climb]
  | succ k ih =>
    rw [climb]
    cases h : (f.node n).parent with
    | none =>
      cases i with
      | zero => rfl
      | succ i => simp [ancestor?_succ_of_root h]
    | some p =>
      cases i with
      | zero => rfl
      | succ i =>
        rw [List.getElem?_cons_succ, ih, ancestor?_succ_of_parent h]
        simp only [Nat.add_le_add_iff_right]

theorem mem_climb_iff {f : Forest} {k : Nat} {n a : NodeId} :
    a ∈ f.climb k n ↔ ∃ i, i ≤ k ∧ f.ancestor? i n = some a := by
  rw [List.mem_iff_getElem?]
  constructor
  · rintro ⟨i, hi⟩
    rw [getElem?_climb] at hi
    split at hi
    · rename_i hik
      exact ⟨i, hik, hi⟩
    · cases hi
  · rintro ⟨i, hik, hi⟩
    exact ⟨i, by rw [getElem?_climb, if_pos hik, hi]⟩

theorem length_climb_of_ancestor? {f : Forest} {k : Nat} {n a : NodeId}
    (h : f.ancestor? k n = some a) : (f.climb k n).length = k + 1 := by
  have hlast : (f.climb k n)[k]? = some a := by rw [getElem?_climb, if_pos (Nat.le_refl k), h]
  have hout : (f.climb k n)[k + 1]? = none := by
    rw [getElem?_climb, if_neg (Nat.not_succ_le_self k)]
  have h1 : k < (f.climb k n).length := (List.getElem?_eq_some_iff.mp hlast).1
  have h2 : (f.climb k n).length ≤ k + 1 := List.getElem?_eq_none_iff.mp hout
  omega

/-! ## linked forests -/

/-- What commands keep of every forest.  That no way up comes back to where it was is said by a
rank that falls along every parent link. -/
structure Linked (f : Forest) : Prop where
  mem_branches_iff : ∀ p b, b ∈ (f.node p).branches ↔ (f.node b).parent = some p
  nodup_branches : ∀ p, (f.node p).branches.Nodup
  ranked : ∃ rank : NodeId → Nat, ∀ b p, (f.node b).parent = some p → rank p < rank b

namespace Linked

variable {f : Forest} (h : f.Linked)
include h

theorem lt_size_of_parent {b p : NodeId} (hb : (f.node b).parent = some p) :
    b < f.size ∧ p < f.size := by
  constructor
  · by_contra hge
    rw [node_of_size_le (Nat.le_of_not_lt hge)] at hb
    cases hb
  · by_contra hge
    have hmem := (h.mem_branches_iff p b).mpr hb
    rw [node_of_size_le (Nat.le_of_not_lt hge)] at hmem
    cases hmem

/-- no way up leads in from outside -/
theorem lt_size_of_below {k : Nat} {m n : NodeId} (hn : n < f.size)
    (hk : f.ancestor? k m = some n) : m < f.size := by
  cases k with
  | zero =>
    cases hk
    exact hn
  | succ k =>
    obtain ⟨p, hp, _⟩ := exists_parent_of_ancestor?_succ hk
    exact (h.lt_size_of_parent hp).1

theorem ne_of_ancestor?_succ {k : Nat} {n a : NodeId} (ha : f.ancestor? (k + 1) n = some a) :
    a ≠ n := by
  obtain ⟨rank, hrank⟩ := h.ranked
  have hfall : ∀ k n, f.ancestor? (k + 1) n = some a → rank a < rank n := by
    intro k
    induction k with
    | zero =>
      intro n hn
      obtain ⟨b, hb, hp⟩ := ancestor?_succ_eq_some_iff.mp hn
      cases hb
      exact hrank n a hp
    | succ k ih =>
      intro n hn
      obtain ⟨p, hp, hup⟩ := exists_parent_of_ancestor?_succ hn
      exact Nat.lt_trans (ih p hup) (hrank n p hp)
  rintro rfl
  exact Nat.lt_irrefl _ (hfall k _ ha)

/-- no way up leads to a branch of the node where it starts -/
theorem ancestor?_ne_of_parent {b p : NodeId} (hp : (f.node b).parent = some p) (k : Nat) :
    f.ancestor? k p ≠ some b := by
  intro hk
  have hround : f.ancestor? (k + 1) p = some p := ancestor?_succ_eq_some_iff.mpr ⟨b, hk, hp⟩
  exact h.ne_of_ancestor?_succ hround rfl

/-- no way up meets a node twice -/
theorem ancestor?_inj {i j : Nat} {n a : NodeId} (hi : f.ancestor? i n = some a)
    (hj : f.ancestor? j n = some a) : i = j := by
  wlog hij : i < j generalizing i j with hw
  · rcases Nat.lt_trichotomy i j with hlt | heq | hgt
    · exact absurd hlt hij
    · exact heq
    · exact (hw hj hi hgt).symm
  · obtain ⟨b, hb, hback⟩ := exists_ancestor?_of_le (Nat.le_of_lt hij) hj
    have hba : b = a := Option.some.inj (hb.symm.trans hi)
    obtain ⟨d, hd⟩ : ∃ d, j - i = d + 1 := ⟨j - i - 1, by omega⟩
    rw [hba, hd] at hback
    exact absurd rfl (h.ne_of_ancestor?_succ hback)

theorem nodup_climb (k : Nat) (n : NodeId) : (f.climb k n).Nodup := by
  rw [List.nodup_iff_getElem?_ne_getElem?]
  intro i j hij hj heq
  obtain ⟨a, ha⟩ : ∃ a, (f.climb k n)[j]? = some a := ⟨_, List.getElem?_eq_getElem hj⟩
  rw [ha] at heq
  rw [getElem?_climb] at ha heq
  split at ha
  · split at heq
    · have := h.ancestor?_inj heq ha
      omega
    · cases heq
  · cases ha

theorem lt_size_of_ancestor? {k : Nat} {n a : NodeId} (hn : n < f.size)
    (ha : f.ancestor? k n = some a) : k < f.size ∧ a < f.size := by
  have hsize : ∀ i b, f.ancestor? i n = some b → b < f.size := by
    intro i b hb
    cases i with
    | zero => cases hb; exact hn
    | succ i =>
      obtain ⟨c, _, hc⟩ := ancestor?_succ_eq_some_iff.mp hb
      exact (h.lt_size_of_parent hc).2
  -- distinct nodes, all of them numbered below the size
  have hsub : f.climb k n ⊆ List.range f.size := by
    intro b hb
    obtain ⟨i, _, hi⟩ := mem_climb_iff.mp hb
    exact List.mem_range.mpr (hsize i b hi)
  have hlen := (h.nodup_climb k n).length_le_of_subset hsub
  rw [length_climb_of_ancestor? ha, List.length_range] at hlen
  exact ⟨hlen, hsize k a ha⟩

theorem ancestor?_eq_none_of_size_lt {k : Nat} (hk : f.size < k) (n : NodeId) :
    f.ancestor? k n = none := by
  cases ha : f.ancestor? k n with
  | none => rfl
  | some a =>
    obtain ⟨i, rfl⟩ : ∃ i, k = i + 1 := ⟨k - 1, by omega⟩
    by_cases hn : n < f.size
    · have := (h.lt_size_of_ancestor? hn ha).1
      omega
    · obtain ⟨p, hp, _⟩ := exists_parent_of_ancestor?_succ ha
      exact absurd (h.lt_size_of_parent hp).1 hn

/-! ## lineages -/

theorem getElem?_lineage (i : Nat) (n : NodeId) : (f.lineage n)[i]? = f.ancestor? i n := by
  rw [lineage, getElem?_climb]
  split
  · rfl
  · rename_i hi
    exact (h.ancestor?_eq_none_of_size_lt (Nat.lt_of_not_le hi) n).symm

theorem mem_lineage_iff {n a : NodeId} : a ∈ f.lineage n ↔ ∃ k, f.ancestor? k n = some a := by
  rw [List.mem_iff_getElem?]
  simp only [h.getElem?_lineage]

theorem lineage_of_parent {n p : NodeId} (hp : (f.node n).parent = some p) :
    f.lineage n = n :: f.lineage p := by
  apply List.ext_getElem?
  intro i
  rw [h.getElem?_lineage]
  cases i with
  | zero => rfl
  | succ i => rw [List.getElem?_cons_succ, h.getElem?_lineage, ancestor?_succ_of_parent hp]

theorem lineage_of_root {n : NodeId} (hroot : (f.node n).parent = none) : f.lineage n = [n] := by
  apply List.ext_getElem?
  intro i
  rw [h.getElem?_lineage]
  cases i with
  | zero => rfl
  | succ i => exact ancestor?_succ_of_root hroot i

theorem under_iff {test : NodeId → Bool} {n : NodeId} :
    f.under test n = true ↔ ∃ k a, f.ancestor? k n = some a ∧ test a = true := by
  rw [under_eq_any_lineage, List.any_eq_true]
  constructor
  · rintro ⟨a, ha, ht⟩
    obtain ⟨k, hk⟩ := h.mem_lineage_iff.mp ha
    exact ⟨k, a, hk, ht⟩
  · rintro ⟨k, a, hk, ht⟩
    exact ⟨a, h.mem_lineage_iff.mpr ⟨k, hk⟩, ht⟩

/-- a test for one node finds it where parent links lead to it -/
theorem under_beq_iff {n b : NodeId} :
    f.under (· == b) n = true ↔ ∃ k, f.ancestor? k n = some b := by
  rw [h.under_iff]
  constructor
  · rintro ⟨k, a, hk, ha⟩
    exact ⟨k, eq_of_beq ha ▸ hk⟩
  · rintro ⟨k, hk⟩
    exact ⟨k, b, hk, beq_self_eq_true b⟩

theorem under_beq_eq_false_iff {n b : NodeId} :
    f.under (· == b) n = false ↔ ∀ k, f.ancestor? k n ≠ some b := by
  rw [← Bool.not_eq_true, h.under_beq_iff, not_exists]

theorem length_lineage (n : NodeId) : (f.lineage n).length = f.depth n + 1 := by
  have hpos : 0 < (f.lineage n).length := by
    have h0 : (f.lineage n)[0]? = some n := h.getElem?_lineage 0 n
    exact (List.getElem?_eq_some_iff.mp h0).1
  rw [depth]
  omega

theorem ancestor?_eq_none_iff {k : Nat} {n : NodeId} : f.ancestor? k n = none ↔ f.depth n < k := by
  rw [← h.getElem?_lineage, List.getElem?_eq_none_iff, h.length_lineage]
  omega

/-- a way up that may be cut is whole exactly if it may be as long as the depth says -/
theorem climb_eq_lineage_iff {k : Nat} {n : NodeId} :
    f.climb k n = f.lineage n ↔ f.depth n ≤ k := by
  constructor
  · intro heq
    have hlen := h.length_lineage n
    have hend : (f.climb k n)[k + 1]? = none := by
      rw [getElem?_climb, if_neg (Nat.not_succ_le_self k)]
    rw [heq, List.getElem?_eq_none_iff] at hend
    omega
  · intro hk
    apply List.ext_getElem?
    intro i
    rw [h.getElem?_lineage, getElem?_climb]
    split
    · rfl
    · exact (h.ancestor?_eq_none_iff.mpr (by omega)).symm

theorem climbsTo_eq_under {k : Nat} {n : NodeId} (hk : f.depth n ≤ k) (test : NodeId → Bool) :
    f.climbsTo test k n = f.under test n := by
  rw [climbsTo_eq_any_climb, h.climb_eq_lineage_iff.mpr hk, under_eq_any_lineage]

/-- the way up is as long as the depth says and ends at the root -/
theorem ancestor?_depth (n : NodeId) : f.ancestor? (f.depth n) n = some (f.root n) := by
  have hlen := h.length_lineage n
  have hne : f.lineage n ≠ [] := by
    intro hnil
    rw [hnil] at hlen
    cases hlen
  have hlast : (f.lineage n)[(f.lineage n).length - 1]? = some (f.root n) := by
    rw [← List.getLast?_eq_getElem?, root, List.getLastD_eq_getLast?,
      List.getLast?_eq_some_getLast hne]
    rfl
  rw [hlen, Nat.add_sub_cancel, h.getElem?_lineage] at hlast
  exact hlast

theorem getLast?_lineage (n : NodeId) : (f.lineage n).getLast? = some (f.root n) := by
  rw [List.getLast?_eq_getElem?, h.length_lineage, Nat.add_sub_cancel, h.getElem?_lineage,
    h.ancestor?_depth]

theorem parent_root (n : NodeId) : (f.node (f.root n)).parent = none := by
  have hend : f.ancestor? (f.depth n + 1) n = none :=
    h.ancestor?_eq_none_iff.mpr (Nat.lt_succ_self _)
  rw [ancestor?_add, h.ancestor?_depth] at hend
  cases hp : (f.node (f.root n)).parent with
  | none => rfl
  | some p =>
    have : f.ancestor? 1 (f.root n) = some p := ancestor?_succ_of_parent hp 0
    rw [Option.bind_some, this] at hend
    cases hend

/-- where the way up can go no further is the root -/
theorem root_eq_of_ancestor? {k : Nat} {n r : NodeId} (hr : f.ancestor? k n = some r)
    (hp : (f.node r).parent = none) : f.root n = r ∧ f.depth n = k := by
  have hend : f.ancestor? (k + 1) n = none := by
    rw [ancestor?_add, hr]
    exact ancestor?_succ_of_root hp 0
  have h1 := h.ancestor?_eq_none_iff.mp hend
  have h2 : ¬ f.depth n < k := by
    rw [← h.ancestor?_eq_none_iff, hr]
    exact Option.some_ne_none r
  have hk : f.depth n = k := by omega
  have hroot := h.ancestor?_depth n
  rw [hk, hr] at hroot
  exact ⟨(Option.some.inj hroot).symm, hk⟩

/-- what a node hangs from has the same root and is as much less deep as links lead to it -/
theorem root_eq_and_depth_eq_of_ancestor? {k : Nat} {n a : NodeId} (ha : f.ancestor? k n = some a) :
    f.root n = f.root a ∧ f.depth n = k + f.depth a := by
  have hup : f.ancestor? (k + f.depth a) n = some (f.root a) := by
    rw [ancestor?_add, ha]
    exact h.ancestor?_depth a
  exact h.root_eq_of_ancestor? hup (h.parent_root a)

end Linked
end Forest
end Arbor
