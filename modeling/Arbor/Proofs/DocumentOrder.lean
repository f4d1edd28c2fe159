import Arbor.Proofs.Recursions

/-!
# The order of the two listings

A walk lists each node before what hangs from it, an enumeration lists it after that.  Two nodes
neither of which hangs from the other part at one node, below two of its branches, and both listings
go through these from left to right.  So the two listings together tell who hangs from whom.

* `Forest.PartAt`            where two nodes part;
* `PartAt.unique`            they do so in one place only;
* `Forest.LeftOf`            the order of two nodes by the branches below which they part;
* `Linked.pairwise_preorder`, `Linked.pairwise_postorder_leftOf`  what is listed before what;
* `Linked.sublist_walk_iff`, `Linked.sublist_enumerate_iff`  so this is the order of two nodes;
* `Linked.above_iff_sublists`  ancestry by the two orders;
* `Reachable.listings_decide_ancestry`  after every run.
-/

namespace Arbor

/-! ## two entries of a list -/

/-- where no entry comes twice, two entries come in one order only -/
theorem not_sublist_swap {l : List NodeId} (hnodup : l.Nodup) {x y : NodeId}
    (hxy : [x, y].Sublist l) : ¬ [y, x].Sublist l := by
  induction l with
  | nil => cases hxy
  | cons a l ih =>
    obtain ⟨ha, hl⟩ := List.nodup_cons.mp hnodup
    intro hyx
    cases hxy with
    | cons _ hxy =>
      cases hyx with
      | cons _ hyx => exact ih hl hxy hyx
      | cons_cons _ _ => exact ha (hxy.subset (List.mem_cons_of_mem x List.mem_cons_self))
    | cons_cons _ hy =>
      cases hyx with
      | cons _ hyx => exact ha (hyx.subset (List.mem_cons_of_mem y List.mem_cons_self))
      | cons_cons _ _ => exact ha (hy.subset List.mem_cons_self)

theorem sublist_or_swap {l : List NodeId} {x y : NodeId} (hx : x ∈ l) (hy : y ∈ l) (hne : x ≠ y) :
    [x, y].Sublist l ∨ [y, x].Sublist l := by
  obtain ⟨before, after, rfl⟩ := List.append_of_mem hx
  rcases List.mem_append.mp hy with hy | hy
  · have hself : [x].Sublist (x :: after) := (List.nil_sublist after).cons_cons x
    exact .inr ((List.singleton_sublist.mpr hy).append hself)
  · have hafter : y ∈ after := (List.mem_cons.mp hy).resolve_left (Ne.symm hne)
    have hpair : [x, y].Sublist (x :: after) := (List.singleton_sublist.mpr hafter).cons_cons x
    exact .inl (hpair.trans (List.sublist_append_right before _))

namespace Forest

/-! ## where two nodes part -/

/-- parent links lead from the second node to the first -/
def Above (f : Forest) (x y : NodeId) : Prop := ∃ k, f.ancestor? (k + 1) y = some x

/-- two nodes stand below two branches of a node -/
structure PartAt (f : Forest) (p b c x y : NodeId) : Prop where
  parent_left : (f.node b).parent = some p
  parent_right : (f.node c).parent = some p
  ne : b ≠ c
  below_left : ∃ i, f.ancestor? i x = some b
  below_right : ∃ j, f.ancestor? j y = some c

/-- the first node stands below an earlier branch of a node than the second -/
def LeftOf (f : Forest) (x y : NodeId) : Prop :=
  ∃ p b c, f.PartAt p b c x y ∧ [b, c].Sublist (f.node p).branches

namespace PartAt

variable {f : Forest} {p b c x y : NodeId}

theorem swap (h : f.PartAt p b c x y) : f.PartAt p c b y x :=
  ⟨h.parent_right, h.parent_left, h.ne.symm, h.below_right, h.below_left⟩

/-- Above a node where they part two nodes do not part again: they are below one branch there. -/
theorem level_le (hf : f.Linked) (h : f.PartAt p b c x y) {q d e : NodeId}
    (h' : f.PartAt q d e x y) {i i' : Nat} (hi : f.ancestor? i x = some b)
    (hi' : f.ancestor? i' x = some d) : i' ≤ i := by
  by_contra hlt
  obtain ⟨k, rfl⟩ : ∃ k, i' = (i + 1) + k := ⟨i' - (i + 1), by omega⟩
  have hxp : f.ancestor? (i + 1) x = some p := ancestor?_succ_eq_some_iff.mpr ⟨b, hi, h.parent_left⟩
  rw [ancestor?_add, hxp, Option.bind_some] at hi'
  obtain ⟨j, hj⟩ := h.below_right
  have hyd : f.ancestor? (j + 1 + k) y = some d := by
    rw [ancestor?_add, ancestor?_succ_eq_some_iff.mpr ⟨c, hj, h.parent_right⟩]
    exact hi'
  obtain ⟨j', hj'⟩ := h'.below_right
  exact h'.ne (hf.branch_unique hyd hj' h'.parent_left h'.parent_right)

theorem unique (hf : f.Linked) (h : f.PartAt p b c x y) {q d e : NodeId}
    (h' : f.PartAt q d e x y) : p = q ∧ b = d ∧ c = e := by
  obtain ⟨i, hi⟩ := h.below_left
  obtain ⟨i', hi'⟩ := h'.below_left
  have hlevel : i = i' := Nat.le_antisymm (h'.level_le hf h hi' hi) (h.level_le hf h' hi hi')
  rw [← hlevel, hi] at hi'
  obtain rfl := Option.some.inj hi'
  have hpq := h.parent_left.symm.trans h'.parent_left
  obtain rfl := Option.some.inj hpq
  obtain ⟨j, hj⟩ := h.below_right
  obtain ⟨j', hj'⟩ := h'.below_right
  exact ⟨rfl, rfl, hf.branch_unique hj hj' h.parent_right h'.parent_right⟩

/-- what is below one branch does not hang from what is below another -/
theorem not_above (hf : f.Linked) (h : f.PartAt p b c x y) : ¬ f.Above x y := by
  rintro ⟨k, hk⟩
  obtain ⟨i, hi⟩ := h.below_left
  obtain ⟨j, hj⟩ := h.below_right
  have hyb : f.ancestor? (k + 1 + i) y = some b := by
    rw [ancestor?_add, hk]
    exact hi
  exact h.ne (hf.branch_unique hyb hj h.parent_left h.parent_right)

end PartAt

namespace Linked

variable {f : Forest} (h : f.Linked)
include h

theorem not_above_swap {x y : NodeId} (hxy : f.Above x y) : ¬ f.Above y x := by
  rintro ⟨j, hj⟩
  obtain ⟨i, hi⟩ := hxy
  have hround : f.ancestor? (i + 1 + j + 1) y = some y := by
    rw [Nat.add_assoc (i + 1), ancestor?_add, hi]
    exact hj
  exact h.ne_of_ancestor?_succ hround rfl

theorem not_leftOf_swap {x y : NodeId} (hxy : f.LeftOf x y) : ¬ f.LeftOf y x := by
  rintro ⟨q, e, d, hpart', hed⟩
  obtain ⟨p, b, c, hpart, hbc⟩ := hxy
  obtain ⟨rfl, rfl, rfl⟩ := hpart.unique h hpart'.swap
  exact not_sublist_swap (h.nodup_branches p) hbc hed

theorem not_above_of_leftOf {x y : NodeId} (hxy : f.LeftOf x y) : ¬ f.Above x y ∧ ¬ f.Above y x := by
  obtain ⟨p, b, c, hpart, -⟩ := hxy
  exact ⟨hpart.not_above h, hpart.swap.not_above h⟩

/-! ## what is listed before what -/

/-- listings of the branches of a node, one after the other -/
theorem pairwise_flatMap_branches {R : NodeId → NodeId → Prop} {φ : NodeId → List NodeId}
    {n : NodeId} (hbelow : ∀ b x, x ∈ φ b → ∃ i, f.ancestor? i x = some b)
    (hinside : ∀ b, (φ b).Pairwise R) (hleft : ∀ x y, f.LeftOf x y → R x y) :
    ((f.node n).branches.flatMap φ).Pairwise R := by
  refine List.pairwise_flatMap.mpr ⟨fun b _ => hinside b, ?_⟩
  refine List.pairwise_iff_forall_sublist.mpr fun {b c} hbc x hx y hy => hleft x y ?_
  have hb := (h.mem_branches_iff n b).mp (hbc.subset List.mem_cons_self)
  have hc := (h.mem_branches_iff n c).mp
    (hbc.subset (List.mem_cons_of_mem b List.mem_cons_self))
  have hne : b ≠ c := by
    rintro rfl
    exact not_sublist_swap (h.nodup_branches n) hbc hbc
  exact ⟨n, b, c, ⟨hb, hc, hne, hbelow b x hx, hbelow c y hy⟩, hbc⟩

theorem above_of_mem_flatMap {φ : NodeId → List NodeId} {n x : NodeId}
    (hbelow : ∀ b x, x ∈ φ b → ∃ i, f.ancestor? i x = some b)
    (hx : x ∈ (f.node n).branches.flatMap φ) : f.Above n x := by
  obtain ⟨b, hb, hxb⟩ := List.mem_flatMap.mp hx
  obtain ⟨i, hi⟩ := hbelow b x hxb
  exact ⟨i, ancestor?_succ_eq_some_iff.mpr ⟨b, hi, (h.mem_branches_iff n b).mp hb⟩⟩

theorem pairwise_preorder (k d : Nat) (n : NodeId) :
    ((f.preorder k d n).map Visit.node).Pairwise fun x y => f.Above x y ∨ f.LeftOf x y := by
  induction k generalizing d n with
  | zero => exact List.Pairwise.nil
  | succ k ih =>
    have hbelow : ∀ b x, x ∈ (f.preorder k (d + 1) b).map Visit.node →
        ∃ i, f.ancestor? i x = some b := fun b x => h.ancestor?_of_mem_preorder
    rw [preorder, List.map_cons, List.map_flatMap, List.pairwise_cons]
    exact ⟨fun x hx => .inl (h.above_of_mem_flatMap hbelow hx),
      h.pairwise_flatMap_branches hbelow (ih (d + 1)) fun _ _ => .inr⟩

theorem pairwise_postorder_leftOf (k : Nat) (n : NodeId) :
    (f.postorder k n).Pairwise fun x y => f.Above y x ∨ f.LeftOf x y := by
  induction k generalizing n with
  | zero => exact List.Pairwise.nil
  | succ k ih =>
    have hbelow : ∀ b x, x ∈ f.postorder k b → ∃ i, f.ancestor? i x = some b :=
      fun b x => h.ancestor?_of_mem_postorder
    rw [postorder, List.pairwise_append]
    refine ⟨h.pairwise_flatMap_branches hbelow ih fun _ _ => .inr, List.pairwise_singleton _ n, ?_⟩
    intro x hx y hy
    obtain rfl := List.mem_singleton.mp hy
    exact .inl (h.above_of_mem_flatMap hbelow hx)

/-! ## the order of two nodes -/

theorem not_swap_of_above_or_leftOf {x y : NodeId} (hxy : f.Above x y ∨ f.LeftOf x y) :
    ¬ (f.Above y x ∨ f.LeftOf y x) := by
  rcases hxy with hxy | hxy
  · exact not_or.mpr ⟨h.not_above_swap hxy, fun hyx => (h.not_above_of_leftOf hyx).2 hxy⟩
  · exact not_or.mpr ⟨(h.not_above_of_leftOf hxy).2, h.not_leftOf_swap hxy⟩

theorem not_swap_of_below_or_leftOf {x y : NodeId} (hxy : f.Above y x ∨ f.LeftOf x y) :
    ¬ (f.Above x y ∨ f.LeftOf y x) := by
  rcases hxy with hxy | hxy
  · exact not_or.mpr ⟨h.not_above_swap hxy, fun hyx => (h.not_above_of_leftOf hyx).1 hxy⟩
  · exact not_or.mpr ⟨(h.not_above_of_leftOf hxy).1, h.not_leftOf_swap hxy⟩

section
variable (hpos : 0 < f.size) {n x y : NodeId} (hx : f.Above n x) (hy : f.Above n y) (hne : x ≠ y)
include hpos hx hy hne

/-- who comes first on a walk -/
theorem sublist_walk_iff :
    [x, y].Sublist ((f.walk n).map Visit.node) ↔ f.Above x y ∨ f.LeftOf x y := by
  have hpairwise := h.pairwise_preorder (f.size + 1) 0 n
  rw [← h.walk_eq_preorder hpos, List.pairwise_iff_forall_sublist] at hpairwise
  have hlisted : ∀ {m}, f.Above n m → m ∈ (f.walk n).map Visit.node := fun ⟨k, hk⟩ =>
    (h.mem_map_walk_iff hpos).mpr ⟨k + 1, hk⟩
  refine ⟨hpairwise, fun hxy => ?_⟩
  exact (sublist_or_swap (hlisted hx) (hlisted hy) hne).resolve_right fun hyx =>
    h.not_swap_of_above_or_leftOf hxy (hpairwise hyx)

/-- who comes first in an enumeration -/
theorem sublist_enumerate_iff :
    [x, y].Sublist (f.enumerate n) ↔ f.Above y x ∨ f.LeftOf x y := by
  have hpairwise := h.pairwise_postorder_leftOf (f.size + 1) n
  rw [← h.enumerate_append_self hpos, List.pairwise_append, List.pairwise_iff_forall_sublist]
    at hpairwise
  have hlisted : ∀ {m}, f.Above n m → m ∈ f.enumerate n := (h.mem_enumerate_iff hpos).mpr
  refine ⟨hpairwise.1, fun hxy => ?_⟩
  exact (sublist_or_swap (hlisted hx) (hlisted hy) hne).resolve_right fun hyx =>
    h.not_swap_of_below_or_leftOf hxy (hpairwise.1 hyx)

theorem above_iff_sublists :
    f.Above x y ↔ [x, y].Sublist ((f.walk n).map Visit.node) ∧ [y, x].Sublist (f.enumerate n) := by
  rw [h.sublist_walk_iff hpos hx hy hne, h.sublist_enumerate_iff hpos hy hx hne.symm]
  constructor
  · exact fun hxy => ⟨.inl hxy, .inl hxy⟩
  · rintro ⟨hwalk, henumerate⟩
    rcases hwalk with hxy | hleft
    · exact hxy
    · exact henumerate.resolve_right (h.not_leftOf_swap hleft)

theorem sublist_walk_iff_sublist_enumerate (hxy : ¬ f.Above x y) (hyx : ¬ f.Above y x) :
    [x, y].Sublist ((f.walk n).map Visit.node) ↔ [x, y].Sublist (f.enumerate n) := by
  rw [h.sublist_walk_iff hpos hx hy hne, h.sublist_enumerate_iff hpos hx hy hne,
    or_iff_right hxy, or_iff_right hyx]

end

end Linked
end Forest

namespace Session

/-- After every run the walk and the enumeration of a living node tell of any two nodes strictly
below it whether one hangs from the other: exactly if it comes before the other on the walk and
after it in the enumeration.  If neither hangs from the other, they come in the same order in both. -/
theorem Reachable.listings_decide_ancestry {s : Session} (h : s.Reachable) {n x y : NodeId}
    (hn : s.Alive n) (hx : ∃ k, s.forest.ancestor? (k + 1) x = some n)
    (hy : ∃ k, s.forest.ancestor? (k + 1) y = some n) (hne : x ≠ y) :
    ((∃ k, s.forest.ancestor? (k + 1) y = some x) ↔
      [x, y].Sublist ((s.forest.walk n).map Visit.node) ∧ [y, x].Sublist (s.forest.enumerate n)) ∧
    ((∀ k, s.forest.ancestor? (k + 1) y ≠ some x) → (∀ k, s.forest.ancestor? (k + 1) x ≠ some y) →
      ([x, y].Sublist ((s.forest.walk n).map Visit.node) ↔
        [x, y].Sublist (s.forest.enumerate n))) :=
  ⟨h.linked.above_iff_sublists (h.pos_size_of_alive hn) hx hy hne, fun hxy hyx =>
    h.linked.sublist_walk_iff_sublist_enumerate (h.pos_size_of_alive hn) hx hy hne
      (fun ⟨k, hk⟩ => hxy k hk) fun ⟨k, hk⟩ => hyx k hk⟩

/-- the second vine hangs from the first rail; the first vine and the second rail stand apart -/
theorem listings_decide_ancestry_trellis :
    (trellis.Reachable ∧ trellis.Alive 0) ∧
      (trellis.forest.walk 0).map Visit.node = [0, 1, 3, 4, 2] ∧
      trellis.forest.enumerate 0 = [3, 4, 1, 2] ∧
      (∃ k, trellis.forest.ancestor? (k + 1) 4 = some 1) ∧
      (¬ ∃ k, trellis.forest.ancestor? (k + 1) 2 = some 3) ∧
      ([3, 2].Sublist ((trellis.forest.walk 0).map Visit.node) ↔
        [3, 2].Sublist (trellis.forest.enumerate 0)) := by
  have hlive : trellis.Alive 0 := .anchored (.inl (by decide +kernel))
  have hwalk : (trellis.forest.walk 0).map Visit.node = [0, 1, 3, 4, 2] := by decide +kernel
  have henumerate : trellis.forest.enumerate 0 = [3, 4, 1, 2] := by decide +kernel
  have hbelow : ∀ m ∈ [3, 4, 1, 2], ∃ k, trellis.forest.ancestor? (k + 1) m = some 0 := fun m hm =>
    (reachable_trellis.linked.mem_enumerate_iff (by decide +kernel)).mp (henumerate ▸ hm)
  have hvine := Reachable.listings_decide_ancestry reachable_trellis hlive (x := 1) (y := 4)
    (hbelow 1 (by decide)) (hbelow 4 (by decide)) (by decide)
  have hapart := Reachable.listings_decide_ancestry reachable_trellis hlive (x := 3) (y := 2)
    (hbelow 3 (by decide)) (hbelow 2 (by decide)) (by decide)
  have hback := Reachable.listings_decide_ancestry reachable_trellis hlive (x := 2) (y := 3)
    (hbelow 2 (by decide)) (hbelow 3 (by decide)) (by decide)
  rw [hwalk, henumerate] at hvine hapart hback
  have hrail : ¬ ∃ k, trellis.forest.ancestor? (k + 1) 2 = some 3 := fun hup =>
    absurd (hapart.1.mp hup).2 (by decide)
  have hvine' : ¬ ∃ k, trellis.forest.ancestor? (k + 1) 3 = some 2 := fun hup =>
    absurd (hback.1.mp hup).1 (by decide)
  refine ⟨⟨reachable_trellis, hlive⟩, hwalk, henumerate, hvine.1.mpr (by decide), hrail, ?_⟩
  rw [hwalk, henumerate]
  exact hapart.2 (fun k hk => hrail ⟨k, hk⟩) fun k hk => hvine' ⟨k, hk⟩

end Session
end Arbor
