import Arbor.Forest.Census
import Arbor.Forest.Enumeration
import Arbor.Forest.Walk
import Arbor.Proofs.Ancestors
import Mathlib.Algebra.GroupWithZero.Nat
import Mathlib.Data.List.Perm.Basic

/-!
# Traversals of a linked forest

Walks, enumerations and counts keep a stack and stop after a number of rounds.  In a linked forest
they are never cut short, and what they list is said by recursion on the branches.

* `Forest.preorder`, `Forest.postorder`  the listings of the upper levels of a subtree;
* `Linked.mem_preorder_iff`   which visits are listed: those that parent links lead back from;
* `Linked.preorder_unfold`    enough levels are the whole subtree;
* `Linked.walk_eq`, `Linked.enumerate_eq`, `Linked.count_eq`  the recursions of the traversals;
* `Linked.mem_walk_iff`, `Linked.mem_enumerate_append_self_iff`  what they meet, by parent links;
* `Linked.pairwise_enumerate`  no node is listed after one that it hangs from.
-/

namespace Arbor

/-- a visit seen from so many levels further up -/
def Visit.deeper (e : Nat) (v : Visit) : Visit := ⟨v.depth + e, v.node⟩

theorem Visit.map_deeper_zero (vs : List Visit) : vs.map (deeper 0) = vs := List.map_id vs

theorem Visit.map_deeper_deeper (d e : Nat) (vs : List Visit) :
    (vs.map (deeper d)).map (deeper e) = vs.map (deeper (d + e)) := by
  rw [List.map_map]
  exact List.map_congr_left fun v _ => congrArg (Visit.mk · v.node) (Nat.add_assoc v.depth d e)

namespace Forest

/-! ## listings by levels -/

/-- the first levels of a subtree, each node before its branches -/
def preorder (f : Forest) : Nat → Nat → NodeId → List Visit
  | 0, _, _ => []
  | k + 1, d, n => ⟨d, n⟩ :: (f.node n).branches.flatMap (preorder f k (d + 1))

/-- the first levels of a subtree, each node after its branches -/
def postorder (f : Forest) : Nat → NodeId → List NodeId
  | 0, _ => []
  | k + 1, n => (f.node n).branches.flatMap (postorder f k) ++ [n]

theorem preorder_add (f : Forest) (k d e : Nat) (n : NodeId) :
    f.preorder k (d + e) n = (f.preorder k d n).map (Visit.deeper e) := by
  induction k generalizing d n with
  | zero => rfl
  | succ k ih =>
    have hbelow : f.preorder k (d + e + 1) =
        fun b => (f.preorder k (d + 1) b).map (Visit.deeper e) := by
      funext b
      rw [Nat.add_right_comm]
      exact ih (d + 1) b
    rw [preorder, preorder, List.map_cons, List.map_flatMap, hbelow]
    rfl

/-- both listings hold the same nodes -/
theorem map_preorder_perm (f : Forest) (k d : Nat) (n : NodeId) :
    ((f.preorder k d n).map Visit.node).Perm (f.postorder k n) := by
  induction k generalizing d n with
  | zero => exact List.Perm.nil
  | succ k ih =>
    rw [preorder, postorder, List.map_cons, List.map_flatMap]
    refine List.Perm.trans ?_ (List.perm_append_singleton _ _).symm
    exact (List.Perm.flatMap_left _ fun b _ => ih (d + 1) b).cons n

namespace Linked

variable {f : Forest} (h : f.Linked)
include h

theorem mem_preorder_iff {k d : Nat} {n : NodeId} {v : Visit} :
    v ∈ f.preorder k d n ↔ ∃ i, i < k ∧ v.depth = d + i ∧ f.ancestor? i v.node = some n := by
  induction k generalizing d n with
  | zero => simp [preorder]
  | succ k ih =>
    rw [preorder, List.mem_cons, List.mem_flatMap]
    constructor
    · rintro (rfl | ⟨b, hb, hv⟩)
      · exact ⟨0, Nat.succ_pos k, rfl, rfl⟩
      · obtain ⟨i, hi, hd, ha⟩ := ih.mp hv
        have hp := (h.mem_branches_iff n b).mp hb
        exact ⟨i + 1, Nat.succ_lt_succ hi, by omega, ancestor?_succ_eq_some_iff.mpr ⟨b, ha, hp⟩⟩
    · rintro ⟨i, hi, hd, ha⟩
      cases i with
      | zero =>
        left
        cases v
        cases hd
        cases ha
        rfl
      | succ i =>
        right
        obtain ⟨b, hb, hp⟩ := ancestor?_succ_eq_some_iff.mp ha
        exact ⟨b, (h.mem_branches_iff n b).mpr hp, ih.mpr ⟨i, by omega, by omega, hb⟩⟩

theorem ancestor?_of_mem_preorder {k d : Nat} {n m : NodeId}
    (hm : m ∈ (f.preorder k d n).map Visit.node) : ∃ i, f.ancestor? i m = some n := by
  obtain ⟨v, hv, rfl⟩ := List.mem_map.mp hm
  obtain ⟨i, _, _, hi⟩ := h.mem_preorder_iff.mp hv
  exact ⟨i, hi⟩

/-- a node stands below one branch of a node only -/
theorem branch_unique {i j : Nat} {m n b c : NodeId} (hb : f.ancestor? i m = some b)
    (hc : f.ancestor? j m = some c) (hbn : (f.node b).parent = some n)
    (hcn : (f.node c).parent = some n) : b = c := by
  have hi : f.ancestor? (i + 1) m = some n := ancestor?_succ_eq_some_iff.mpr ⟨b, hb, hbn⟩
  have hj : f.ancestor? (j + 1) m = some n := ancestor?_succ_eq_some_iff.mpr ⟨c, hc, hcn⟩
  have hij : i = j := Nat.succ.inj (h.ancestor?_inj hi hj)
  rw [hij, hc] at hb
  exact (Option.some.inj hb).symm

theorem nodup_preorder (k d : Nat) (n : NodeId) : ((f.preorder k d n).map Visit.node).Nodup := by
  induction k generalizing d n with
  | zero => exact List.nodup_nil
  | succ k ih =>
    have hup : ∀ b m, m ∈ (f.preorder k (d + 1) b).map Visit.node →
        ∃ i, f.ancestor? i m = some b := fun b m hm => h.ancestor?_of_mem_preorder hm
    rw [preorder, List.map_cons, List.map_flatMap, List.nodup_cons]
    constructor
    · intro hn
      obtain ⟨b, hb, hn⟩ := List.mem_flatMap.mp hn
      obtain ⟨i, ha⟩ := hup b n hn
      exact h.ancestor?_ne_of_parent ((h.mem_branches_iff n b).mp hb) i ha
    · rw [List.nodup_flatMap]
      refine ⟨fun b _ => ih (d + 1) b, ?_⟩
      refine List.Pairwise.imp_of_mem ?_ (h.nodup_branches n)
      intro b c hb hc hbc m hmb hmc
      obtain ⟨i, hi⟩ := hup b m hmb
      obtain ⟨j, hj⟩ := hup c m hmc
      exact hbc (h.branch_unique hi hj ((h.mem_branches_iff n b).mp hb)
        ((h.mem_branches_iff n c).mp hc))

/-! ## enough levels -/

theorem lt_succ_size_of_ancestor? {i : Nat} {m n : NodeId} (ha : f.ancestor? i m = some n) :
    i < f.size + 1 := by
  by_contra hi
  rw [h.ancestor?_eq_none_of_size_lt (by omega)] at ha
  cases ha

theorem preorder_succ {k : Nat} {n : NodeId} (hk : ∀ m i, f.ancestor? i m = some n → i < k)
    (d : Nat) : f.preorder (k + 1) d n = f.preorder k d n := by
  induction k generalizing d n with
  | zero => exact absurd (hk n 0 rfl) (Nat.lt_irrefl 0)
  | succ k ih =>
    rw [preorder, preorder]
    congr 1
    refine List.flatMap_congr fun b hb => ih ?_ (d + 1)
    intro m i ha
    have hp := (h.mem_branches_iff n b).mp hb
    have := hk m (i + 1) (ancestor?_succ_eq_some_iff.mpr ⟨b, ha, hp⟩)
    omega

theorem postorder_succ {k : Nat} {n : NodeId} (hk : ∀ m i, f.ancestor? i m = some n → i < k) :
    f.postorder (k + 1) n = f.postorder k n := by
  induction k generalizing n with
  | zero => exact absurd (hk n 0 rfl) (Nat.lt_irrefl 0)
  | succ k ih =>
    rw [postorder, postorder]
    congr 1
    refine List.flatMap_congr fun b hb => ih ?_
    intro m i ha
    have hp := (h.mem_branches_iff n b).mp hb
    have := hk m (i + 1) (ancestor?_succ_eq_some_iff.mpr ⟨b, ha, hp⟩)
    omega

/-- no subtree has more levels than the forest has nodes -/
theorem preorder_unfold (d : Nat) (n : NodeId) :
    f.preorder (f.size + 1) d n =
      ⟨d, n⟩ :: (f.node n).branches.flatMap (f.preorder (f.size + 1) (d + 1)) := by
  rw [← h.preorder_succ (fun m i ha => h.lt_succ_size_of_ancestor? ha) d]
  rfl

theorem postorder_unfold (n : NodeId) :
    f.postorder (f.size + 1) n =
      (f.node n).branches.flatMap (f.postorder (f.size + 1)) ++ [n] := by
  rw [← h.postorder_succ fun m i ha => h.lt_succ_size_of_ancestor? ha]
  rfl

/-- a listing meets no node twice, and where it does not start outside, it stays inside -/
theorem length_preorder_le (hpos : 0 < f.size) (k d : Nat) (n : NodeId) :
    (f.preorder k d n).length ≤ f.size := by
  by_cases hn : n < f.size
  · have hsub : (f.preorder k d n).map Visit.node ⊆ List.range f.size := by
      intro m hm
      obtain ⟨v, hv, rfl⟩ := List.mem_map.mp hm
      obtain ⟨i, _, _, ha⟩ := h.mem_preorder_iff.mp hv
      exact List.mem_range.mpr (h.lt_size_of_below hn ha)
    have hlen := (h.nodup_preorder k d n).length_le_of_subset hsub
    rwa [List.length_map, List.length_range] at hlen
  · cases k with
    | zero => exact Nat.zero_le _
    | succ k =>
      rw [preorder, node_of_size_le (Nat.le_of_not_lt hn)]
      exact hpos

/-! ## walks -/

/-- a walk with enough rounds lists the subtrees of the pending visits one after the other -/
theorem take_of_length_le {k : Nat} (w : Walk)
    (hk : ((w.pending f).flatMap fun v => f.preorder (f.size + 1) v.depth v.node).length ≤ k) :
    (w.take f k).1 = (w.pending f).flatMap fun v => f.preorder (f.size + 1) v.depth v.node := by
  induction k generalizing w with
  | zero => exact (List.eq_nil_of_length_eq_zero (Nat.le_zero.mp hk)).symm
  | succ k ih =>
    rw [Walk.take, Walk.advance]
    cases hw : w.pending f with
    | nil => rfl
    | cons v rest =>
      have hnext : Walk.pending f ⟨some v, rest⟩ =
          (f.node v.node).branches.map (⟨v.depth + 1, ·⟩) ++ rest := rfl
      rw [hw, List.flatMap_cons, h.preorder_unfold, List.cons_append, List.length_cons] at hk
      show v :: (Walk.take f k ⟨some v, rest⟩).1 = _
      rw [ih, List.flatMap_cons, h.preorder_unfold, hnext, List.flatMap_append, List.flatMap_map]
      · rfl
      · rw [hnext, List.flatMap_append, List.flatMap_map]
        exact Nat.le_of_succ_le_succ hk

theorem walk_eq_preorder (hpos : 0 < f.size) (n : NodeId) :
    f.walk n = f.preorder (f.size + 1) 0 n := by
  have hstart : (Walk.start n).pending f = [⟨0, n⟩] := rfl
  have hlen := h.length_preorder_le hpos (f.size + 1) 0 n
  rw [walk, h.take_of_length_le, hstart, List.flatMap_singleton]
  rwa [hstart, List.flatMap_singleton]

theorem walk_eq (hpos : 0 < f.size) (n : NodeId) :
    f.walk n = ⟨0, n⟩ :: (f.node n).branches.flatMap fun b => (f.walk b).map (Visit.deeper 1) := by
  rw [h.walk_eq_preorder hpos, h.preorder_unfold]
  congr 1
  refine List.flatMap_congr fun b _ => ?_
  rw [h.walk_eq_preorder hpos, preorder_add]

/-- a walk meets what parent links lead back from -/
theorem mem_walk_iff (hpos : 0 < f.size) {n : NodeId} {v : Visit} :
    v ∈ f.walk n ↔ f.ancestor? v.depth v.node = some n := by
  rw [h.walk_eq_preorder hpos, h.mem_preorder_iff]
  constructor
  · rintro ⟨i, _, hd, ha⟩
    rwa [hd, Nat.zero_add]
  · intro ha
    exact ⟨v.depth, h.lt_succ_size_of_ancestor? ha, (Nat.zero_add _).symm, ha⟩

theorem mem_map_walk_iff (hpos : 0 < f.size) {n m : NodeId} :
    m ∈ (f.walk n).map Visit.node ↔ ∃ k, f.ancestor? k m = some n := by
  rw [List.mem_map]
  constructor
  · rintro ⟨v, hv, rfl⟩
    exact ⟨v.depth, (h.mem_walk_iff hpos).mp hv⟩
  · rintro ⟨k, hk⟩
    exact ⟨⟨k, m⟩, (h.mem_walk_iff hpos).mpr hk, rfl⟩

theorem nodup_map_walk (hpos : 0 < f.size) (n : NodeId) : ((f.walk n).map Visit.node).Nodup := by
  rw [h.walk_eq_preorder hpos]
  exact h.nodup_preorder _ 0 n

/-! ## counts -/

theorem length_preorder_unfold (d : Nat) (n : NodeId) :
    (f.preorder (f.size + 1) d n).length =
      1 + ((f.node n).branches.map fun b => (f.preorder (f.size + 1) 0 b).length).sum := by
  have hlevel : ∀ b, (f.preorder (f.size + 1) (d + 1) b).length =
      (f.preorder (f.size + 1) 0 b).length := by
    intro b
    rw [← Nat.zero_add (d + 1), preorder_add, List.length_map]
  rw [h.preorder_unfold, List.length_cons, List.length_flatMap, Nat.add_comm]
  simp only [hlevel]

/-- the branches wait in the other order, which does not change their number -/
theorem drive_census {k : Nat} (c : Census)
    (hk : (c.waiting.map fun n => (f.preorder (f.size + 1) 0 n).length).sum ≤ k) :
    (drive (Census.step f) k c).total =
      c.total + (c.waiting.map fun n => (f.preorder (f.size + 1) 0 n).length).sum := by
  induction k generalizing c with
  | zero => rw [Nat.le_zero.mp hk]; rfl
  | succ k ih =>
    obtain ⟨total, waiting⟩ := c
    cases waiting with
    | nil => rfl
    | cons n rest =>
      have hstep : Census.step f ⟨total, n :: rest⟩ =
          some ⟨total + 1, (f.node n).branches.reverse ++ rest⟩ := rfl
      rw [drive_succ_of_step_eq_some hstep, ih]
      · simp only [List.map_append, List.map_reverse, List.sum_append, List.sum_reverse,
          List.map_cons, List.sum_cons, h.length_preorder_unfold 0 n]
        omega
      · simp only [List.map_append, List.map_reverse, List.sum_append, List.sum_reverse,
          List.map_cons, List.sum_cons, h.length_preorder_unfold 0 n] at hk ⊢
        omega

theorem count_eq_length_walk (hpos : 0 < f.size) (n : NodeId) : f.count n = (f.walk n).length := by
  have hstart : (Census.start n).waiting = [n] := rfl
  have hlen := h.length_preorder_le hpos (f.size + 1) 0 n
  rw [count, h.drive_census, hstart, List.map_singleton, List.sum_singleton,
    h.walk_eq_preorder hpos]
  · exact Nat.zero_add _
  · rwa [hstart, List.map_singleton, List.sum_singleton]

theorem count_eq (hpos : 0 < f.size) (n : NodeId) :
    f.count n = 1 + ((f.node n).branches.map f.count).sum := by
  rw [h.count_eq_length_walk hpos, h.walk_eq_preorder hpos, h.length_preorder_unfold]
  congr 2
  refine List.map_congr_left fun b _ => ?_
  rw [h.count_eq_length_walk hpos, h.walk_eq_preorder hpos]

/-! ## enumerations -/

theorem drive_enumeration {k : Nat} (e : Enumeration)
    (hk : (e.opened.map fun o =>
      2 * (o.rest.flatMap (f.postorder (f.size + 1))).length + 1).sum ≤ k) :
    (drive (Enumeration.step f) k e).closed.reverse = e.closed.reverse ++
      e.opened.flatMap fun o => o.rest.flatMap (f.postorder (f.size + 1)) ++ o.node.toList := by
  induction k generalizing e with
  | zero =>
    obtain ⟨opened, closed⟩ := e
    cases opened with
    | nil => exact (List.append_nil _).symm
    | cons o outer =>
      rw [List.map_cons, List.sum_cons] at hk
      omega
  | succ k ih =>
    obtain ⟨opened, closed⟩ := e
    match opened with
    | [] => exact (List.append_nil _).symm
    | ⟨n, b :: rest⟩ :: outer =>
      have hstep : Enumeration.step f ⟨⟨n, b :: rest⟩ :: outer, closed⟩ =
          some ⟨⟨some b, (f.node b).branches⟩ :: ⟨n, rest⟩ :: outer, closed⟩ := by
        cases n <;> rfl
      rw [drive_succ_of_step_eq_some hstep, ih]
      · simp [h.postorder_unfold b]
      · simp only [List.map_cons, List.sum_cons, List.flatMap_cons, h.postorder_unfold b,
          List.length_append, List.length_singleton] at hk ⊢
        omega
    | ⟨none, []⟩ :: outer =>
      have hstep : Enumeration.step f ⟨⟨none, []⟩ :: outer, closed⟩ = some ⟨outer, closed⟩ := rfl
      rw [drive_succ_of_step_eq_some hstep, ih]
      · rfl
      · simp only [List.map_cons, List.sum_cons] at hk ⊢
        omega
    | ⟨some n, []⟩ :: outer =>
      have hstep : Enumeration.step f ⟨⟨some n, []⟩ :: outer, closed⟩ =
          some ⟨outer, n :: closed⟩ := rfl
      rw [drive_succ_of_step_eq_some hstep, ih]
      · simp
      · simp only [List.map_cons, List.sum_cons] at hk ⊢
        omega

theorem enumerate_append_self (hpos : 0 < f.size) (n : NodeId) :
    f.enumerate n ++ [n] = f.postorder (f.size + 1) n := by
  have hstart : (Enumeration.start f n).opened = [⟨none, (f.node n).branches⟩] := rfl
  have hlen : (f.postorder (f.size + 1) n).length ≤ f.size := by
    rw [← (map_preorder_perm f (f.size + 1) 0 n).length_eq, List.length_map]
    exact h.length_preorder_le hpos _ 0 n
  rw [h.postorder_unfold, List.length_append, List.length_singleton] at hlen
  rw [h.postorder_unfold, enumerate, h.drive_enumeration, hstart]
  · simp [Enumeration.start]
  · rw [hstart, List.map_singleton, List.sum_singleton]
    show 2 * ((f.node n).branches.flatMap _).length + 1 ≤ 2 * f.size + 1
    omega

theorem enumerate_eq (hpos : 0 < f.size) (n : NodeId) :
    f.enumerate n = (f.node n).branches.flatMap fun b => f.enumerate b ++ [b] := by
  have hpost := h.enumerate_append_self hpos n
  rw [h.postorder_unfold] at hpost
  rw [List.append_cancel_right hpost]
  exact List.flatMap_congr fun b _ => (h.enumerate_append_self hpos b).symm

theorem map_walk_perm (hpos : 0 < f.size) (n : NodeId) :
    ((f.walk n).map Visit.node).Perm (f.enumerate n ++ [n]) := by
  rw [h.walk_eq_preorder hpos, h.enumerate_append_self hpos]
  exact map_preorder_perm f _ 0 n

/-- what a release with the node takes: the node and all that parent links lead back from -/
theorem mem_enumerate_append_self_iff (hpos : 0 < f.size) {n m : NodeId} :
    m ∈ f.enumerate n ++ [n] ↔ ∃ k, f.ancestor? k m = some n := by
  rw [← (h.map_walk_perm hpos n).mem_iff, h.mem_map_walk_iff hpos]

/-! ## the order of an enumeration -/

theorem ancestor?_of_mem_postorder {k : Nat} {n m : NodeId} (hm : m ∈ f.postorder k n) :
    ∃ i, f.ancestor? i m = some n :=
  h.ancestor?_of_mem_preorder ((map_preorder_perm f k 0 n).mem_iff.mpr hm)

/-- no node is listed after itself or after one that it hangs from -/
theorem pairwise_postorder (k : Nat) (n : NodeId) :
    (f.postorder k n).Pairwise fun x y => ∀ i, f.ancestor? i y ≠ some x := by
  induction k generalizing n with
  | zero => exact List.Pairwise.nil
  | succ k ih =>
    rw [postorder, List.pairwise_append]
    refine ⟨?_, List.pairwise_singleton _ n, ?_⟩
    · rw [List.pairwise_flatMap]
      refine ⟨fun b _ => ih b, ?_⟩
      -- what is below one branch does not hang from what is below another
      refine List.Pairwise.imp_of_mem ?_ (h.nodup_branches n)
      intro b c hb hc hbc x hx y hy i hi
      obtain ⟨j, hj⟩ := h.ancestor?_of_mem_postorder hx
      obtain ⟨l, hl⟩ := h.ancestor?_of_mem_postorder hy
      have hyb : f.ancestor? (i + j) y = some b := by
        rw [ancestor?_add, hi]
        exact hj
      exact hbc (h.branch_unique hyb hl ((h.mem_branches_iff n b).mp hb)
        ((h.mem_branches_iff n c).mp hc))
    · intro x hx y hy i hi
      obtain rfl : y = n := List.mem_singleton.mp hy
      obtain ⟨b, hb, hxb⟩ := List.mem_flatMap.mp hx
      obtain ⟨j, hj⟩ := h.ancestor?_of_mem_postorder hxb
      have hround : f.ancestor? (i + j) y = some b := by
        rw [ancestor?_add, hi]
        exact hj
      exact h.ancestor?_ne_of_parent ((h.mem_branches_iff y b).mp hb) _ hround

theorem pairwise_enumerate (hpos : 0 < f.size) (n : NodeId) :
    (f.enumerate n).Pairwise fun x y => ∀ i, f.ancestor? i y ≠ some x := by
  have hpost := h.pairwise_postorder (f.size + 1) n
  rw [← h.enumerate_append_self hpos] at hpost
  exact (List.pairwise_append.mp hpost).1

/-- listed is what hangs from the start, which is not listed itself -/
theorem mem_enumerate_iff (hpos : 0 < f.size) {n m : NodeId} :
    m ∈ f.enumerate n ↔ ∃ k, f.ancestor? (k + 1) m = some n := by
  have hpost := h.pairwise_postorder (f.size + 1) n
  rw [← h.enumerate_append_self hpos] at hpost
  have hself : ∀ x ∈ f.enumerate n, x ≠ n := by
    rintro x hx rfl
    exact (List.pairwise_append.mp hpost).2.2 x hx x List.mem_cons_self 0 rfl
  have hmem := h.mem_enumerate_append_self_iff hpos (n := n) (m := m)
  rw [List.mem_append, List.mem_singleton] at hmem
  constructor
  · intro hm
    obtain ⟨k, hk⟩ := hmem.mp (Or.inl hm)
    cases k with
    | zero => exact absurd (Option.some.inj hk) (hself m hm)
    | succ k => exact ⟨k, hk⟩
  · rintro ⟨k, hk⟩
    rcases hmem.mpr ⟨k + 1, hk⟩ with hm | rfl
    · exact hm
    · exact absurd rfl (h.ne_of_ancestor?_succ hk)

theorem not_mem_enumerate_self (hpos : 0 < f.size) (n : NodeId) : n ∉ f.enumerate n := by
  intro hn
  obtain ⟨k, hk⟩ := (h.mem_enumerate_iff hpos).mp hn
  exact h.ne_of_ancestor?_succ hk rfl

/-- the branches of the start and of all that is listed are listed, and nothing else is -/
theorem mem_enumerate_iff_of_parent (hpos : 0 < f.size) {n m b : NodeId}
    (hb : (f.node b).parent = some m) : b ∈ f.enumerate n ↔ m ∈ f.enumerate n ++ [n] := by
  rw [h.mem_enumerate_iff hpos, h.mem_enumerate_append_self_iff hpos]
  simp only [ancestor?_succ_of_parent hb]

end Linked
end Forest
end Arbor
