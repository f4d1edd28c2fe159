import Arbor.Proofs.Frames
import Arbor.Proofs.Lifetimes
import Mathlib.Logic.Function.Basic

/-!
# Rewriting a subtree node by node

Each node of a subtree is kept, taken off its parent, replaced by a new node, or destroyed.  After
some of the nodes had their turn, every node of the forest is given by what it was at first and by
the plan so far.  A turn keeps it so, if nothing above its node had one before.

* `Plan`                  what is done to each node, or nothing;
* `Forest.Wiped`          the nodes that go with a destroyed one;
* `Forest.Rewritten`      the forest after the turns of a plan;
* `Rewritten.detach`, `Rewritten.plant`, `Rewritten.substitute`, `Rewritten.destroy`  one turn more.
-/

namespace Arbor

/-! ## plans -/

inductive Treatment where
  /-- nothing is done -/
  | keep
  /-- the parent is told to remove the node -/
  | detach
  /-- the parent is told to replace the node by a new one of this name -/
  | replace (name : String)
  | destroy
  deriving DecidableEq

abbrev Plan := NodeId → Treatment

namespace Plan

/-- the plan for the nodes of a list; all others are kept -/
def within (plan : Plan) (ns : List NodeId) : Plan := fun n => if n ∈ ns then plan n else .keep

/-- what stands in the place of a branch after its turn -/
def remainder (plan : Plan) (new : NodeId → NodeId) (b : NodeId) : List NodeId :=
  match plan b with
  | .keep => [b]
  | .replace _ => [new b]
  | .detach | .destroy => []

/-- the branches of a node after their turns -/
def remainders (plan : Plan) (new : NodeId → NodeId) (bs : List NodeId) : List NodeId :=
  bs.flatMap (plan.remainder new)

theorem within_of_not_mem (plan : Plan) {ns : List NodeId} {n : NodeId} (hn : n ∉ ns) :
    plan.within ns n = .keep := if_neg hn

theorem within_of_mem (plan : Plan) {ns : List NodeId} {n : NodeId} (hn : n ∈ ns) :
    plan.within ns n = plan n := if_pos hn

theorem within_append_singleton (plan : Plan) (ns : List NodeId) (n : NodeId) :
    plan.within (ns ++ [n]) = Function.update (plan.within ns) n (plan n) := by
  funext m
  by_cases hm : m = n
  · subst hm
    rw [Function.update_self, within_of_mem plan (List.mem_append_right ns List.mem_cons_self)]
  · rw [Function.update_of_ne hm]
    simp [within, hm]

variable {plan plan' : Plan} {new new' : NodeId → NodeId}

theorem remainder_congr {b : NodeId} (hplan : plan' b = plan b) (hnew : new' b = new b) :
    plan'.remainder new' b = plan.remainder new b := by
  rw [remainder, remainder, hplan, hnew]

theorem remainders_congr {bs : List NodeId} (hplan : ∀ b ∈ bs, plan' b = plan b)
    (hnew : ∀ b ∈ bs, new' b = new b) : plan'.remainders new' bs = plan.remainders new bs :=
  List.flatMap_congr fun b hb => remainder_congr (hplan b hb) (hnew b hb)

theorem remainders_of_keep {bs : List NodeId} (hkeep : ∀ b ∈ bs, plan b = .keep) :
    plan.remainders new bs = bs := by
  have hsame : plan.remainders new bs = bs.flatMap fun b => [b] :=
    List.flatMap_congr fun b hb => by rw [remainder, hkeep b hb]
  rw [hsame, List.flatMap_singleton']

/-- a treated node loses its parent -/
theorem parent_update {n : NodeId} {x : Treatment} (hx : x ≠ .keep) (m : NodeId)
    (q : Option NodeId) : (if Function.update plan n x m = .keep then q else none) =
      if m = n then none else if plan m = .keep then q else none := by
  by_cases hm : m = n
  · rw [hm, Function.update_self, if_neg hx, if_pos rfl]
  · rw [Function.update_of_ne hm, if_neg hm]

theorem replace_of_update {n b : NodeId} {x : Treatment} {name : String}
    (hx : x ≠ .replace name) (hb : Function.update plan n x b = .replace name) :
    plan b = .replace name := by
  by_cases he : b = n
  · rw [he, Function.update_self] at hb
    exact absurd hb hx
  · rwa [Function.update_of_ne he] at hb

/-- a replaced node is the one whose turn it is, or it had its turn before -/
theorem replace_update_cases {n b : NodeId} {name other : String}
    (hb : Function.update plan n (.replace name) b = .replace other) :
    b = n ∧ other = name ∨ b ≠ n ∧ plan b = .replace other := by
  by_cases he : b = n
  · rw [he, Function.update_self] at hb
    cases hb
    exact Or.inl ⟨he, rfl⟩
  · rw [Function.update_of_ne he] at hb
    exact Or.inr ⟨he, hb⟩

/-- where one kept branch has its turn, the others stand before and after it as they did -/
theorem remainders_split {bs : List NodeId} {n : NodeId} (hnodup : bs.Nodup) (hn : n ∈ bs)
    (hkeep : plan n = .keep) (hplan : ∀ b, b ≠ n → plan' b = plan b)
    (hnew : ∀ b, b ≠ n → new' b = new b) :
    ∃ front back, plan.remainders new bs = front ++ n :: back ∧
      plan'.remainders new' bs = front ++ plan'.remainder new' n ++ back := by
  obtain ⟨before, after, rfl⟩ := List.append_of_mem hn
  rw [List.nodup_middle, List.nodup_cons, List.mem_append, not_or] at hnodup
  obtain ⟨⟨hbefore, hafter⟩, _⟩ := hnodup
  have hother : ∀ cs : List NodeId, n ∉ cs → plan'.remainders new' cs = plan.remainders new cs :=
    fun cs hcs => remainders_congr (fun b hb => hplan b fun he => hcs (he ▸ hb))
      (fun b hb => hnew b fun he => hcs (he ▸ hb))
  refine ⟨plan.remainders new before, plan.remainders new after, ?_, ?_⟩
  · rw [remainders, List.flatMap_append, List.flatMap_cons, remainder, hkeep]
    rfl
  · rw [← hother before hbefore, ← hother after hafter, remainders, List.flatMap_append,
      List.flatMap_cons, List.append_assoc]
    rfl

end Plan

/-! ## what goes with a destroyed node -/

namespace Forest

/-- going up from the first node to the second, all nodes before the second are kept -/
inductive KeptUpTo (f : Forest) (plan : Plan) : NodeId → NodeId → Prop where
  | self (m : NodeId) : KeptUpTo f plan m m
  | up {m p a : NodeId} : plan m = .keep → (f.node m).parent = some p → KeptUpTo f plan p a →
      KeptUpTo f plan m a

/-- the first node on the way up that is not kept is destroyed -/
def Wiped (f : Forest) (plan : Plan) (m : NodeId) : Prop :=
  ∃ a, f.KeptUpTo plan m a ∧ plan a = .destroy

/-- no node from here upwards had its turn yet -/
def Untouched (f : Forest) (plan : Plan) (n : NodeId) : Prop :=
  ∀ k a, f.ancestor? k n = some a → plan a = .keep

section
variable {f : Forest} {plan : Plan}

theorem KeptUpTo.ancestor? {m a : NodeId} (h : f.KeptUpTo plan m a) :
    ∃ k, f.ancestor? k m = some a := by
  induction h with
  | self m => exact ⟨0, rfl⟩
  | up _ hp _ ih =>
    obtain ⟨k, hk⟩ := ih
    exact ⟨k + 1, by rwa [ancestor?_succ_of_parent hp]⟩

theorem Untouched.keep {n : NodeId} (h : f.Untouched plan n) : plan n = .keep := h 0 n rfl

theorem Untouched.parent {n p : NodeId} (h : f.Untouched plan n) (hp : (f.node n).parent = some p) :
    f.Untouched plan p := fun k a hk => h (k + 1) a (by rwa [ancestor?_succ_of_parent hp])

theorem Untouched.not_wiped {n : NodeId} (h : f.Untouched plan n) : ¬ f.Wiped plan n := by
  rintro ⟨a, hup, ha⟩
  obtain ⟨k, hk⟩ := hup.ancestor?
  rw [h k a hk] at ha
  cases ha

theorem wiped_iff_of_keep {m p : NodeId} (hkeep : plan m = .keep)
    (hp : (f.node m).parent = some p) : f.Wiped plan m ↔ f.Wiped plan p := by
  constructor
  · rintro ⟨a, hup, ha⟩
    cases hup with
    | self => rw [hkeep] at ha; cases ha
    | up _ hq hup =>
      rw [hp] at hq
      cases hq
      exact ⟨a, hup, ha⟩
  · rintro ⟨a, hup, ha⟩
    exact ⟨a, KeptUpTo.up hkeep hp hup, ha⟩

theorem not_wiped_of_keptUpTo {m a : NodeId} (h : f.KeptUpTo plan m a) (ha : ¬ f.Wiped plan a) :
    ¬ f.Wiped plan m := by
  induction h with
  | self m => exact ha
  | up hkeep hp _ ih => exact fun hm => ih ha ((wiped_iff_of_keep hkeep hp).mp hm)

/-- a turn at `n` cuts the ways up that lead past it -/
theorem KeptUpTo.update {n m a : NodeId} (x : Treatment) (h : f.KeptUpTo plan m a) :
    f.KeptUpTo (Function.update plan n x) m a ∨
      f.KeptUpTo (Function.update plan n x) m n ∧ f.KeptUpTo plan n a := by
  induction h with
  | self m => exact Or.inl (KeptUpTo.self m)
  | @up m p a hkeep hp hup ih =>
    by_cases hm : m = n
    · subst hm
      exact Or.inr ⟨KeptUpTo.self m, KeptUpTo.up hkeep hp hup⟩
    · have hkeep' : Function.update plan n x m = .keep := by rwa [Function.update_of_ne hm]
      rcases ih with hup' | ⟨hup', hn⟩
      · exact Or.inl (KeptUpTo.up hkeep' hp hup')
      · exact Or.inr ⟨KeptUpTo.up hkeep' hp hup', hn⟩

theorem KeptUpTo.of_update {n m a : NodeId} {x : Treatment} (hkeep : plan n = .keep)
    (h : f.KeptUpTo (Function.update plan n x) m a) : f.KeptUpTo plan m a := by
  induction h with
  | self m => exact KeptUpTo.self m
  | @up m p a hm hp _ ih =>
    refine KeptUpTo.up ?_ hp ih
    by_cases he : m = n
    · rw [he, hkeep]
    · rwa [Function.update_of_ne he] at hm

/-- a turn wipes nothing but what goes with its own node -/
theorem Untouched.wiped_update_iff {n m : NodeId} (h : f.Untouched plan n) (x : Treatment) :
    f.Wiped (Function.update plan n x) m ↔
      f.Wiped plan m ∨ x = .destroy ∧ f.KeptUpTo plan m n := by
  constructor
  · rintro ⟨a, hup, ha⟩
    have hold := hup.of_update h.keep
    by_cases hn : a = n
    · rw [hn, Function.update_self] at ha
      exact Or.inr ⟨ha, hn ▸ hold⟩
    · rw [Function.update_of_ne hn] at ha
      exact Or.inl ⟨a, hold, ha⟩
  · rintro (⟨a, hup, ha⟩ | ⟨rfl, hup⟩)
    · have hn : a ≠ n := by
        rintro rfl
        rw [h.keep] at ha
        cases ha
      rcases hup.update (n := n) x with hup' | ⟨_, hpast⟩
      · exact ⟨a, hup', by rwa [Function.update_of_ne hn]⟩
      · exact absurd ⟨a, hpast, ha⟩ h.not_wiped
    · refine ⟨n, ?_, Function.update_self n _ plan⟩
      rcases hup.update (n := n) .destroy with hup' | ⟨hup', _⟩ <;> exact hup'

end

/-! ## the forest after some turns -/

/-- What became of a forest `f` by the turns of a plan.  The nodes of `f` are as the plan says; the
others are new and stand alone or in the place of a replaced node. -/
structure Rewritten (f : Forest) (plan : Plan) (new : NodeId → NodeId) (g : Forest) : Prop where
  linked : g.Linked
  size_le : f.size ≤ g.size
  wiped : ∀ m, m < f.size → f.Wiped plan m → g.node m = (f.node m).released
  spared : ∀ m, m < f.size → ¬ f.Wiped plan m → g.node m =
    { f.node m with
      parent := if plan m = .keep then (f.node m).parent else none
      branches := plan.remainders new (f.node m).branches }
  bare : ∀ m, f.size ≤ m → (g.node m).branches = []
  newcomer : ∀ b name, plan b = .replace name →
    f.size ≤ new b ∧ new b < g.size ∧ (g.node (new b)).content = Node.fresh name
  distinct : ∀ b c name other, plan b = .replace name → plan c = .replace other → new b = new c →
    b = c

namespace Rewritten

theorem start {f : Forest} (h : f.Linked) {plan : Plan} (hplan : ∀ n, plan n = .keep)
    (new : NodeId → NodeId) : f.Rewritten plan new f where
  linked := h
  size_le := Nat.le_refl _
  wiped m _ hm := by
    obtain ⟨a, _, ha⟩ := hm
    rw [hplan] at ha
    cases ha
  spared m _ _ := by rw [if_pos (hplan m), Plan.remainders_of_keep fun b _ => hplan b]
  bare m hm := by rw [node_of_size_le hm]; rfl
  newcomer b name hb := by rw [hplan] at hb; cases hb
  distinct b c name other hb := by rw [hplan] at hb; cases hb

variable {f g : Forest} {plan : Plan} {new : NodeId → NodeId} (h : f.Rewritten plan new g)
include h

/-! ## before a turn -/

theorem name_eq {m : NodeId} (hm : m < f.size) : (g.node m).name = (f.node m).name := by
  by_cases hw : f.Wiped plan m
  · rw [h.wiped m hm hw]
    rfl
  · rw [h.spared m hm hw]

/-- what is kept with all its branches, and does not go with a destroyed node, is what it was -/
theorem node_of_keep {m : NodeId} (hm : m < f.size) (hnot : ¬ f.Wiped plan m)
    (hkeep : plan m = .keep) (hbranches : ∀ b ∈ (f.node m).branches, plan b = .keep) :
    g.node m = f.node m := by
  rw [h.spared m hm hnot, if_pos hkeep, Plan.remainders_of_keep hbranches]

theorem parent_of_untouched {n p : NodeId} (hf : f.Linked) (hp : (f.node n).parent = some p)
    (hn : f.Untouched plan n) : (g.node n).parent = some p := by
  rw [h.spared n (hf.lt_size_of_parent hp).1 hn.not_wiped]
  show (if plan n = .keep then _ else none) = some p
  rw [if_pos hn.keep, hp]

/-- a new node hangs from the parent of the one that it replaced, unless that was wiped -/
theorem parent_newcomer (hf : f.Linked) {b p : NodeId} {name : String}
    (hp : (f.node b).parent = some p) (hnot : ¬ f.Wiped plan p) (hb : plan b = .replace name) :
    (g.node (new b)).parent = some p := by
  have hin : new b ∈ plan.remainders new (f.node p).branches := by
    refine List.mem_flatMap.mpr ⟨b, (hf.mem_branches_iff p b).mpr hp, ?_⟩
    rw [Plan.remainder, hb]
    exact List.mem_singleton_self (new b)
  rw [← h.linked.mem_branches_iff, h.spared p (hf.lt_size_of_parent hp).2 hnot]
  exact hin

/-- what hangs from a node that had no turn goes with it -/
theorem ancestor?_iff (hf : f.Linked) {m n : NodeId} (hm : m < f.size) (hn : f.Untouched plan n) :
    (∃ k, g.ancestor? k m = some n) ↔ f.KeptUpTo plan m n := by
  constructor
  · rintro ⟨k, hk⟩
    induction k generalizing m with
    | zero =>
      obtain rfl : m = n := Option.some.inj hk
      exact KeptUpTo.self m
    | succ k ih =>
      obtain ⟨p, hp, hup⟩ := exists_parent_of_ancestor?_succ hk
      have hnot : ¬ f.Wiped plan m := by
        intro hw
        rw [h.wiped m hm hw] at hp
        cases hp
      rw [h.spared m hm hnot] at hp
      replace hp : (if plan m = .keep then (f.node m).parent else none) = some p := hp
      split at hp
      · rename_i hkeep
        exact KeptUpTo.up hkeep hp (ih (hf.lt_size_of_parent hp).2 hup)
      · cases hp
  · intro hup
    induction hup with
    | self m => exact ⟨0, rfl⟩
    | @up m p a hkeep hp hup ih =>
      obtain ⟨k, hk⟩ := ih (hf.lt_size_of_parent hp).2 hn
      have hnot : ¬ f.Wiped plan m :=
        not_wiped_of_keptUpTo (KeptUpTo.up hkeep hp hup) hn.not_wiped
      have hp' : (g.node m).parent = some p := by
        rw [h.spared m hm hnot]
        show (if plan m = .keep then _ else none) = some p
        rw [if_pos hkeep, hp]
      exact ⟨k + 1, by rwa [ancestor?_succ_of_parent hp']⟩

/-! ## one turn -/

section
variable (hf : f.Linked) {n p : NodeId} (hp : (f.node n).parent = some p)
  (hn : f.Untouched plan n)
include hf hp hn

/-- the branches of any other node than the parent are left alone -/
theorem remainders_of_ne {m : NodeId} (hm : m < f.size) (hnot : ¬ f.Wiped plan m) (hmp : m ≠ p)
    (x : Treatment) {new' : NodeId → NodeId} (hnew : ∀ b, b ≠ n → new' b = new b) :
    Plan.remainders (Function.update plan n x) new' (f.node m).branches =
        plan.remainders new (f.node m).branches ∧
      n ∉ plan.remainders new (f.node m).branches := by
  have hbranch : ∀ b ∈ (f.node m).branches, b ≠ n := by
    rintro b hb rfl
    have hbm := (hf.mem_branches_iff m b).mp hb
    rw [hp] at hbm
    exact hmp (Option.some.inj hbm).symm
  constructor
  · exact Plan.remainders_congr (fun b hb => Function.update_of_ne (hbranch b hb) x plan)
      fun b hb => hnew b (hbranch b hb)
  · have hg : (g.node m).branches = plan.remainders new (f.node m).branches := by
      rw [h.spared m hm hnot]
    rw [← hg, h.linked.mem_branches_iff, h.parent_of_untouched hf hp hn]
    exact fun hpm => hmp (Option.some.inj hpm).symm

/-- among the branches of the parent only the place of the node changes -/
theorem remainders_parent (x : Treatment) {new' : NodeId → NodeId}
    (hnew : ∀ b, b ≠ n → new' b = new b) :
    ∃ front back, plan.remainders new (f.node p).branches = front ++ n :: back ∧ n ∉ front ∧
      Plan.remainders (Function.update plan n x) new' (f.node p).branches =
        front ++ Plan.remainder (Function.update plan n x) new' n ++ back := by
  have hbranch : n ∈ (f.node p).branches := (hf.mem_branches_iff p n).mpr hp
  obtain ⟨front, back, hold, hafter⟩ := Plan.remainders_split (hf.nodup_branches p) hbranch
    hn.keep (fun b hb => Function.update_of_ne hb x plan) hnew
  refine ⟨front, back, hold, ?_, hafter⟩
  have hg : (g.node p).branches = front ++ n :: back := by
    rw [h.spared p (hf.lt_size_of_parent hp).2 (hn.parent hp).not_wiped, ← hold]
  have hnodup := h.linked.nodup_branches p
  rw [hg, List.nodup_middle, List.nodup_cons, List.mem_append, not_or] at hnodup
  exact hnodup.1.1

theorem remainders_erase {m : NodeId} (hm : m < f.size) (hnot : ¬ f.Wiped plan m) {x : Treatment}
    (hx : x = .detach ∨ x = .destroy) :
    Plan.remainders (Function.update plan n x) new (f.node m).branches =
      (plan.remainders new (f.node m).branches).erase n := by
  by_cases hmp : m = p
  · obtain ⟨front, back, hold, hfront, hafter⟩ :=
      h.remainders_parent hf hp hn x fun b _ => (rfl : new b = new b)
    have hgone : Plan.remainder (Function.update plan n x) new n = [] := by
      rw [Plan.remainder, Function.update_self]
      rcases hx with rfl | rfl <;> rfl
    rw [hmp, hold, hafter, hgone, List.append_nil, List.erase_append_right _ hfront,
      List.erase_cons_head]
  · obtain ⟨hsame, hout⟩ := h.remainders_of_ne hf hp hn hm hnot hmp x fun b _ => rfl
    rw [hsame, List.erase_of_not_mem hout]

theorem remainders_replace {m : NodeId} (hm : m < f.size) (hnot : ¬ f.Wiped plan m) (name : String)
    (y : NodeId) :
    Plan.remainders (Function.update plan n (.replace name)) (Function.update new n y)
        (f.node m).branches =
      if m = p then (plan.remainders new (f.node m).branches).replace n y
      else plan.remainders new (f.node m).branches := by
  have hnew : ∀ b, b ≠ n → Function.update new n y b = new b :=
    fun b hb => Function.update_of_ne hb y new
  by_cases hmp : m = p
  · obtain ⟨front, back, hold, hfront, hafter⟩ :=
      h.remainders_parent hf hp hn (.replace name) hnew
    have hplace : Plan.remainder (Function.update plan n (.replace name))
        (Function.update new n y) n = [y] := by
      rw [Plan.remainder, Function.update_self, Function.update_self]
    rw [if_pos hmp, hmp, hold, hafter, hplace, List.replace_append_right hfront,
      List.replace_cons_self, List.append_assoc]
    rfl
  · rw [if_neg hmp, (h.remainders_of_ne hf hp hn hm hnot hmp (.replace name) hnew).1]

theorem detach : f.Rewritten (Function.update plan n .detach) new (g.detach p n) := by
  obtain ⟨hns, hps⟩ := hf.lt_size_of_parent hp
  have hng : n < g.size := Nat.lt_of_lt_of_le hns h.size_le
  have hpg : p < g.size := Nat.lt_of_lt_of_le hps h.size_le
  have hwiped : ∀ m, f.Wiped (Function.update plan n .detach) m ↔ f.Wiped plan m := fun m => by
    simp [hn.wiped_update_iff]
  have hreplace : ∀ b name, Function.update plan n .detach b = .replace name →
      plan b = .replace name := fun b name => Plan.replace_of_update (by simp)
  refine ⟨h.linked.detach (h.parent_of_untouched hf hp hn), ?_, fun m hm hw => ?_,
    fun m hm hnot => ?_, fun m hm => ?_, fun b name hb => ?_, fun b c name other hb hc => ?_⟩
  · rw [size_detach]
    exact h.size_le
  · rw [node_detach hpg hng, h.wiped m hm ((hwiped m).mp hw)]
    simp [Node.released, Node.fresh]
  · rw [hwiped] at hnot
    rw [node_detach hpg hng, h.spared m hm hnot, Plan.parent_update (by simp),
      h.remainders_erase hf hp hn hm hnot (Or.inl rfl)]
    by_cases hmp : m = p
    · rw [if_pos hmp]
    · have hout := (h.remainders_of_ne hf hp hn hm hnot hmp .detach fun b _ => rfl).2
      rw [if_neg hmp, List.erase_of_not_mem hout]
  · have hmp : m ≠ p := Nat.ne_of_gt (Nat.lt_of_lt_of_le hps hm)
    rw [node_detach hpg hng]
    show (if m = p then _ else _) = []
    rw [if_neg hmp, h.bare m hm]
  · obtain ⟨hlow, hlt, hcontent⟩ := h.newcomer b name (hreplace b name hb)
    have hbp : new b ≠ p := Nat.ne_of_gt (Nat.lt_of_lt_of_le hps hlow)
    refine ⟨hlow, by rwa [size_detach], ?_⟩
    rw [node_detach hpg hng, if_neg hbp]
    exact hcontent
  · exact h.distinct b c name other (hreplace b name hb) (hreplace c other hc)

/-- a new node takes the place of the node -/
theorem substitute {y : NodeId} {name : String} (hlow : f.size ≤ y) (hy : y < g.size)
    (hfresh : g.node y = Node.fresh name) (hunused : ∀ b other, plan b = .replace other → new b ≠ y) :
    f.Rewritten (Function.update plan n (.replace name)) (Function.update new n y)
      (g.substitute p n y) := by
  obtain ⟨hns, hps⟩ := hf.lt_size_of_parent hp
  have hng : n < g.size := Nat.lt_of_lt_of_le hns h.size_le
  have hpg : p < g.size := Nat.lt_of_lt_of_le hps h.size_le
  have hout : ∀ m, m < f.size → m ≠ y := fun m hm => Nat.ne_of_lt (Nat.lt_of_lt_of_le hm hlow)
  have hwiped : ∀ m, f.Wiped (Function.update plan n (.replace name)) m ↔ f.Wiped plan m :=
    fun m => by simp [hn.wiped_update_iff]
  have hfree : ∀ k, g.ancestor? k p ≠ some y :=
    h.linked.ancestor?_ne_of_no_branches (by rw [hfresh]; rfl) (hout p hps)
  refine ⟨h.linked.substitute (h.parent_of_untouched hf hp hn) hy (by rw [hfresh]; rfl) hfree, ?_,
    fun m hm hw => ?_, fun m hm hnot => ?_, fun m hm => ?_, fun b other hb => ?_,
    fun b c first second hb hc hbc => ?_⟩
  · rw [size_substitute]
    exact h.size_le
  · rw [node_substitute hpg hng hy, h.wiped m hm ((hwiped m).mp hw), if_neg (hout m hm)]
    simp [Node.released, Node.fresh]
  · rw [hwiped] at hnot
    rw [node_substitute hpg hng hy, h.spared m hm hnot, if_neg (hout m hm),
      Plan.parent_update (by simp), h.remainders_replace hf hp hn hm hnot]
  · have hmp : m ≠ p := Nat.ne_of_gt (Nat.lt_of_lt_of_le hps hm)
    rw [node_substitute hpg hng hy]
    show (if m = p then _ else _) = []
    rw [if_neg hmp, h.bare m hm]
  · rw [size_substitute]
    rcases Plan.replace_update_cases hb with ⟨rfl, rfl⟩ | ⟨hbn, hold⟩
    · have hyp : y ≠ p := (hout p hps).symm
      rw [Function.update_self, node_substitute hpg hng hy, if_neg hyp, hfresh]
      exact ⟨hlow, hy, rfl⟩
    · obtain ⟨hb, hlt, hcontent⟩ := h.newcomer b other hold
      have hbp : new b ≠ p := Nat.ne_of_gt (Nat.lt_of_lt_of_le hps hb)
      rw [Function.update_of_ne hbn, node_substitute hpg hng hy, if_neg hbp]
      exact ⟨hb, hlt, hcontent⟩
  · rcases Plan.replace_update_cases hb with ⟨rfl, _⟩ | ⟨hbn, hb'⟩
    · rcases Plan.replace_update_cases hc with ⟨rfl, _⟩ | ⟨hcn, hc'⟩
      · rfl
      · rw [Function.update_self, Function.update_of_ne hcn] at hbc
        exact absurd hbc.symm (hunused c second hc')
    · rcases Plan.replace_update_cases hc with ⟨rfl, _⟩ | ⟨hcn, hc'⟩
      · rw [Function.update_self, Function.update_of_ne hbn] at hbc
        exact absurd hbc (hunused b first hb')
      · rw [Function.update_of_ne hbn, Function.update_of_ne hcn] at hbc
        exact h.distinct b c first second hb' hc' hbc

theorem destroy : f.Rewritten (Function.update plan n .destroy) new (g.destroy n).forest := by
  have hns := (hf.lt_size_of_parent hp).1
  have hng : n < g.size := Nat.lt_of_lt_of_le hns h.size_le
  have hreplace : ∀ b name, Function.update plan n .destroy b = .replace name →
      plan b = .replace name := fun b name => Plan.replace_of_update (by simp)
  refine ⟨h.linked.destroy hng, ?_, fun m hm hw => ?_, fun m hm hnot => ?_, fun m hm => ?_,
    fun b name hb => ?_, fun b c name other hb hc => ?_⟩
  · rw [size_destroy]
    exact h.size_le
  · rcases h.linked.node_destroy hng m with ⟨_, hnode⟩ | ⟨hup, hnode⟩
    · rw [hnode, Node.released, h.name_eq hm]
      rfl
    · have hold : f.Wiped plan m := by
        rcases (hn.wiped_update_iff .destroy).mp hw with hold | ⟨_, hkept⟩
        · exact hold
        · obtain ⟨k, hk⟩ := (h.ancestor?_iff hf hm hn).mpr hkept
          exact absurd hk (hup k)
      rw [hnode, h.wiped m hm hold]
      rfl
  · rw [hn.wiped_update_iff, not_or] at hnot
    obtain ⟨hnot, hkept⟩ := hnot
    rcases h.linked.node_destroy hng m with ⟨hup, _⟩ | ⟨_, hnode⟩
    · exact absurd ⟨rfl, (h.ancestor?_iff hf hm hn).mp hup⟩ hkept
    · have hmn : m ≠ n := by
        rintro rfl
        exact hkept ⟨rfl, KeptUpTo.self m⟩
      rw [hnode, h.spared m hm hnot, Plan.parent_update (by simp), if_neg hmn,
        h.remainders_erase hf hp hn hm hnot (Or.inr rfl)]
  · rcases h.linked.node_destroy hng m with ⟨_, hnode⟩ | ⟨_, hnode⟩
    · rw [hnode]
      rfl
    · rw [hnode, h.bare m hm]
      rfl
  · obtain ⟨hlow, hlt, hcontent⟩ := h.newcomer b name (hreplace b name hb)
    refine ⟨hlow, by rwa [size_destroy], ?_⟩
    rcases h.linked.node_destroy hng (new b) with ⟨_, hnode⟩ | ⟨_, hnode⟩
    · have hname : (g.node (new b)).content.released = Node.fresh name := by
        rw [hcontent]
        rfl
      rw [hnode]
      exact hname
    · have hsame : (g.node (new b)).branches.erase n = (g.node (new b)).branches := by
        rw [h.bare _ hlow]
        rfl
      rw [hnode, hsame]
      exact hcontent
  · exact h.distinct b c name other (hreplace b name hb) (hreplace c other hc)

end

/-- a further node that stands alone -/
theorem plant (name : String) : f.Rewritten plan new (g.plant name) := by
  have hold : ∀ m, m < g.size → (g.plant name).node m = g.node m := fun m hm =>
    node_plant_of_lt hm name
  refine ⟨h.linked.plant name, ?_, fun m hm hw => ?_, fun m hm hnot => ?_, fun m hm => ?_,
    fun b other hb => ?_, h.distinct⟩
  · rw [size_plant]
    exact Nat.le_succ_of_le h.size_le
  · rw [hold m (Nat.lt_of_lt_of_le hm h.size_le), h.wiped m hm hw]
  · rw [hold m (Nat.lt_of_lt_of_le hm h.size_le), h.spared m hm hnot]
  · rw [(links_plant g name m).2, h.bare m hm]
  · obtain ⟨hlow, hlt, hcontent⟩ := h.newcomer b other hb
    refine ⟨hlow, ?_, ?_⟩
    · rw [size_plant]
      exact Nat.lt_succ_of_lt hlt
    · rw [hold _ hlt, hcontent]

end Rewritten
end Forest
end Arbor
