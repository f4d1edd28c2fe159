import Arbor.Proofs.DocumentOrder
import Arbor.Proofs.Rounds
import Mathlib.Data.Set.Card

/-!
# How long the loops of a forest run

The loops that answer questions about a node follow links until there are no more.  On a cycle they
would go round for ever.  In a linked forest each of them comes to an end, after a number of rounds
that the depth of the node and the size of its subtree tell beforehand.

* `Ascent`                 a loop up the parent links, which may stop at a node that passes a test;
* `Linked.exists_rounds_ascent`  it comes to the nodes of the lineage, as far as it goes;
* `Census.roundsLeft`, `Walk.roundsLeft`, `Enumeration.roundsLeft`  what a loop down the branches
                           still has to do, which is one less after each round;
* `Linked.exists_rounds_census`, `Linked.exists_rounds_walk`, `Linked.exists_rounds_enumeration`
                           so these end as well, and make as many rounds;
* `Reachable.loops_end`    after every run no loop hangs, and bounds of this size cut none short.
-/

namespace Arbor

/-! ## up the parent links -/

/-- A loop up the parent links: the node that it comes to next, if there is one, and what it has
worked out from the nodes before. -/
structure Ascent (α : Type) where
  next : Option NodeId
  result : α

namespace Ascent
variable {α : Type}

/-- One round works in the next node, and goes on to its parent unless the node passes the test. -/
def step (f : Forest) (stop : NodeId → Bool) (work : α → NodeId → α) (a : Ascent α) :
    Option (Ascent α) :=
  match a.next with
  | none => none
  | some m => some ⟨if stop m then none else (f.node m).parent, work a.result m⟩

/-- the test of a loop that goes up as far as it can -/
def never (_ : NodeId) : Bool := false

/-- keeps the node that it came to last -/
def seekRoot (f : Forest) : Ascent NodeId → Option (Ascent NodeId) :=
  step f never fun _ m => m

/-- counts the nodes that it comes to -/
def countLinks (f : Forest) : Ascent Nat → Option (Ascent Nat) :=
  step f never fun d _ => d + 1

/-- puts the name of each node before those from further down -/
def collectNames (f : Forest) : Ascent (List String) → Option (Ascent (List String)) :=
  step f never fun names m => (f.node m).name :: names

/-- stops at one node, and tells whether it came there -/
def seek (f : Forest) (b : NodeId) : Ascent Bool → Option (Ascent Bool) :=
  step f (· == b) fun _ m => m == b

end Ascent

/-- the entries up to the first one that passes a test, which is the last one then -/
def upTo (stop : NodeId → Bool) : List NodeId → List NodeId
  | [] => []
  | m :: rest => if stop m then [m] else m :: upTo stop rest

theorem upTo_sublist (stop : NodeId → Bool) (ms : List NodeId) : (upTo stop ms).Sublist ms := by
  induction ms with
  | nil => exact List.Sublist.refl _
  | cons m rest ih =>
    rw [upTo]
    split
    · exact List.singleton_sublist.mpr List.mem_cons_self
    · exact ih.cons_cons m

theorem upTo_never (ms : List NodeId) : upTo Ascent.never ms = ms := by
  induction ms with
  | nil => rfl
  | cons m rest ih => exact congrArg (m :: ·) ih

/-- a search that stops where it succeeds -/
theorem foldl_upTo_beq (b : NodeId) (ms : List NodeId) :
    (upTo (· == b) ms).foldl (fun _ m => m == b) false = ms.any (· == b) := by
  induction ms with
  | nil => rfl
  | cons m rest ih =>
    rw [upTo, List.any_cons]
    cases hm : m == b with
    | true =>
      rw [if_pos rfl, List.foldl_cons, hm]
      rfl
    | false =>
      rw [if_neg Bool.false_ne_true, List.foldl_cons, hm, ih]
      rfl

theorem foldl_eq_getLastD (n : NodeId) (ms : List NodeId) :
    ms.foldl (fun _ m => m) n = ms.getLastD n := by
  induction ms generalizing n with
  | nil => rfl
  | cons m rest ih => rw [List.foldl_cons, ih, List.getLastD_cons]

namespace Forest.Linked

variable {f : Forest} (h : f.Linked)
include h

section
variable {α : Type} (work : α → NodeId → α)

/-- By recursion on the way up: the loop comes to the nodes of the lineage, up to the first one
where it stops. -/
theorem exists_rounds_ascent (stop : NodeId → Bool) (n : NodeId) (a : α) :
    ∃ rounds, Rounds (Ascent.step f stop work) ⟨some n, a⟩ rounds
        ⟨none, (upTo stop (f.lineage n)).foldl work a⟩ ∧
      rounds.map Ascent.next = (upTo stop (f.lineage n)).map some := by
  have hround : Ascent.step f stop work ⟨some n, a⟩ =
      some ⟨if stop n then none else (f.node n).parent, work a n⟩ := rfl
  cases hp : (f.node n).parent with
  | none =>
    have hvisited : upTo stop (f.lineage n) = [n] := by
      rw [h.lineage_of_root hp, upTo, upTo, ite_self]
    rw [hp, ite_self] at hround
    rw [hvisited]
    exact ⟨_, .round hround (.ended rfl), rfl⟩
  | some p =>
    rw [h.lineage_of_parent hp, upTo]
    by_cases hstop : stop n = true
    · rw [if_pos hstop] at hround ⊢
      exact ⟨_, .round hround (.ended rfl), rfl⟩
    · rw [if_neg hstop, hp] at hround
      rw [if_neg hstop]
      obtain ⟨later, hlater, hvisited⟩ := exists_rounds_ascent stop p (work a n)
      exact ⟨_, .round hround hlater, congrArg (some n :: ·) hvisited⟩
termination_by f.depth n
decreasing_by exact Nat.lt_of_lt_of_eq (Nat.lt_succ_self _) (h.depth_of_parent hp).symm

/-- a loop that begins above its start -/
theorem exists_rounds_ascent_parent (n : NodeId) (a : α) :
    ∃ rounds, Rounds (Ascent.step f Ascent.never work) ⟨(f.node n).parent, a⟩ rounds
        ⟨none, (f.lineage n).tail.foldl work a⟩ ∧
      some n :: rounds.map Ascent.next = (f.lineage n).map some := by
  cases hp : (f.node n).parent with
  | none =>
    rw [h.lineage_of_root hp]
    exact ⟨[], .ended rfl, rfl⟩
  | some p =>
    obtain ⟨rounds, hrounds, hvisited⟩ := h.exists_rounds_ascent work Ascent.never p a
    rw [upTo_never] at hrounds hvisited
    rw [h.lineage_of_parent hp]
    exact ⟨rounds, hrounds, congrArg (some n :: ·) hvisited⟩

/-- no loop up the parent links comes to a node twice, or to more of them than the depth and one -/
theorem nodup_of_ascent {stop : NodeId → Bool} {n : NodeId} {rounds : List (Ascent α)}
    (hvisited : rounds.map Ascent.next = (upTo stop (f.lineage n)).map some) :
    (rounds.map Ascent.next).Nodup ∧ rounds.length ≤ f.depth n + 1 := by
  have hsub := upTo_sublist stop (f.lineage n)
  constructor
  · rw [hvisited]
    exact ((h.nodup_climb f.size n).sublist hsub).map (Option.some_injective _)
  · have hlength := congrArg List.length hvisited
    rw [List.length_map, List.length_map] at hlength
    rw [hlength, ← h.length_lineage]
    exact hsub.length_le

/-- nor does one that begins above its start come back to it -/
theorem nodup_of_ascent_parent {n : NodeId} {rounds : List (Ascent α)}
    (hvisited : some n :: rounds.map Ascent.next = (f.lineage n).map some) :
    (some n :: rounds.map Ascent.next).Nodup ∧ rounds.length = f.depth n := by
  constructor
  · rw [hvisited]
    exact (h.nodup_climb f.size n).map (Option.some_injective _)
  · have hlength := congrArg List.length hvisited
    rw [List.length_cons, List.length_map, List.length_map, h.length_lineage] at hlength
    exact Nat.succ.inj hlength

end

theorem exists_rounds_root (n : NodeId) :
    ∃ rounds, Rounds (Ascent.seekRoot f) ⟨(f.node n).parent, n⟩ rounds ⟨none, f.root n⟩ ∧
      (some n :: rounds.map Ascent.next).Nodup ∧ rounds.length = f.depth n := by
  obtain ⟨rounds, hrounds, hvisited⟩ := h.exists_rounds_ascent_parent (fun _ m => m) n n
  have hroot : (f.lineage n).tail.foldl (fun _ m => m) n = f.root n := by
    obtain ⟨above, habove⟩ : ∃ above, f.lineage n = n :: above := by
      cases hp : (f.node n).parent with
      | none => exact ⟨[], h.lineage_of_root hp⟩
      | some p => exact ⟨_, h.lineage_of_parent hp⟩
    rw [foldl_eq_getLastD, root, habove, List.tail_cons, List.getLastD_cons]
  rw [hroot] at hrounds
  exact ⟨rounds, hrounds, h.nodup_of_ascent_parent hvisited⟩

theorem exists_rounds_depth (n : NodeId) :
    ∃ rounds, Rounds (Ascent.countLinks f) ⟨(f.node n).parent, 0⟩ rounds ⟨none, f.depth n⟩ ∧
      (some n :: rounds.map Ascent.next).Nodup ∧ rounds.length = f.depth n := by
  obtain ⟨rounds, hrounds, hvisited⟩ := h.exists_rounds_ascent_parent (fun d _ => d + 1) n 0
  have hdepth : (f.lineage n).tail.foldl (fun d _ => d + 1) 0 = f.depth n := by
    rw [List.foldl_add_const, List.length_tail, Nat.zero_add, Nat.one_mul]
    rfl
  rw [hdepth] at hrounds
  exact ⟨rounds, hrounds, h.nodup_of_ascent_parent hvisited⟩

theorem exists_rounds_path (n : NodeId) :
    ∃ rounds names, Rounds (Ascent.collectNames f) ⟨some n, []⟩ rounds ⟨none, names⟩ ∧
      Path.join names = f.path n ∧
      (rounds.map Ascent.next).Nodup ∧ rounds.length = f.depth n + 1 := by
  obtain ⟨rounds, hrounds, hvisited⟩ := h.exists_rounds_ascent
    (fun names m => (f.node m).name :: names) Ascent.never n []
  have hnodup := h.nodup_of_ascent hvisited
  rw [upTo_never] at hrounds hvisited
  have hnames : Path.join ((f.lineage n).foldl (fun names m => (f.node m).name :: names) []) =
      f.path n := by
    rw [List.foldl_flip_cons_eq_append, List.append_nil, path, List.map_reverse]
  have hlength := congrArg List.length hvisited
  rw [List.length_map, List.length_map, h.length_lineage] at hlength
  exact ⟨rounds, _, hrounds, hnames, hnodup.1, hlength⟩

theorem exists_rounds_under (n b : NodeId) :
    ∃ rounds, Rounds (Ascent.seek f b) ⟨some n, false⟩ rounds ⟨none, f.under (· == b) n⟩ ∧
      (rounds.map Ascent.next).Nodup ∧ rounds.length ≤ f.depth n + 1 := by
  obtain ⟨rounds, hrounds, hvisited⟩ :=
    h.exists_rounds_ascent (fun _ m => m == b) (· == b) n false
  rw [foldl_upTo_beq, ← under_eq_any_lineage] at hrounds
  exact ⟨rounds, hrounds, h.nodup_of_ascent hvisited⟩

/-- one round for each node of the lineage is enough for all four -/
theorem result_drive_ascents {n : NodeId} {k : Nat} (hk : f.depth n + 1 ≤ k) :
    (drive (Ascent.seekRoot f) k ⟨(f.node n).parent, n⟩).result = f.root n ∧
      (drive (Ascent.countLinks f) k ⟨(f.node n).parent, 0⟩).result = f.depth n ∧
      Path.join (drive (Ascent.collectNames f) k ⟨some n, []⟩).result = f.path n ∧
      ∀ b, (drive (Ascent.seek f b) k ⟨some n, false⟩).result = f.under (· == b) n := by
  refine ⟨?_, ?_, ?_, fun b => ?_⟩
  · obtain ⟨rounds, hrounds, _, hlength⟩ := h.exists_rounds_root n
    rw [hrounds.drive_eq (by omega)]
  · obtain ⟨rounds, hrounds, _, hlength⟩ := h.exists_rounds_depth n
    rw [hrounds.drive_eq (by omega)]
  · obtain ⟨rounds, names, hrounds, hnames, _, hlength⟩ := h.exists_rounds_path n
    rw [hrounds.drive_eq (by omega), hnames]
  · obtain ⟨rounds, hrounds, _, hlength⟩ := h.exists_rounds_under n b
    rw [hrounds.drive_eq (by omega)]

end Forest.Linked

/-! ## down the branches -/

namespace Census

/-- the nodes that are still to be counted -/
def roundsLeft (f : Forest) (c : Census) : Nat := (c.waiting.map f.count).sum

theorem waiting_of_ended {f : Forest} {c : Census} (hended : step f c = none) : c.waiting = [] := by
  rw [step] at hended
  split at hended
  · assumption
  · cases hended

end Census

namespace Walk

/-- the walk after the next visit -/
def proceed (f : Forest) (w : Walk) : Option Walk := (w.advance f).map Prod.snd

/-- the next visit -/
def visit? (f : Forest) (w : Walk) : Option Visit := (w.advance f).map Prod.fst

/-- the visits to come while nothing changes -/
def roundsLeft (f : Forest) (w : Walk) : Nat := ((w.pending f).map fun v => f.count v.node).sum

theorem pending_of_ended {f : Forest} {w : Walk} (hended : proceed f w = none) :
    w.pending f = [] := by
  rw [proceed, advance] at hended
  split at hended
  · assumption
  · cases hended

/-- so many visits at once are those of so many rounds -/
theorem map_take_of_rounds {f : Forest} {w last : Walk} {rounds : List Walk}
    (h : Rounds (proceed f) w rounds last) (k : Nat) :
    (w.take f k).1.map some = (rounds.take k).map (visit? f) := by
  induction h generalizing k with
  | ended hended =>
    have hnone := Option.map_eq_none_iff.mp hended
    cases k with
    | zero => rfl
    | succ k =>
      rw [take, hnone]
      rfl
  | @round w next last later hround _ ih =>
    obtain ⟨⟨v, _⟩, hsome, rfl⟩ := Option.map_eq_some_iff.mp hround
    cases k with
    | zero => rfl
    | succ k =>
      have hvisit : visit? f w = some v := by rw [visit?, hsome, Option.map_some]
      rw [take, hsome, List.take_succ_cons, List.map_cons, List.map_cons, hvisit, ← ih]

end Walk

namespace Enumeration

/-- A node that was not opened yet is to be opened and to be closed, and one that is open is to be
closed. -/
def roundsLeft (f : Forest) (e : Enumeration) : Nat :=
  (e.opened.map fun o => 2 * (o.rest.map f.count).sum + 1).sum

theorem step_branch (f : Forest) (n : Option NodeId) (b : NodeId) (rest : List NodeId)
    (outer : List Opened) (closed : List NodeId) :
    step f ⟨⟨n, b :: rest⟩ :: outer, closed⟩ =
      some ⟨⟨some b, (f.node b).branches⟩ :: ⟨n, rest⟩ :: outer, closed⟩ := by
  cases n <;> rfl

theorem opened_of_ended {f : Forest} {e : Enumeration} (hended : step f e = none) :
    e.opened = [] := by
  rw [step] at hended
  split at hended
  · assumption
  all_goals cases hended

end Enumeration

namespace Forest.Linked

variable {f : Forest} (h : f.Linked) (hpos : 0 < f.size)
include h hpos

theorem count_le_size (n : NodeId) : f.count n ≤ f.size := by
  rw [h.count_eq_length_walk hpos, h.walk_eq_preorder hpos]
  exact h.length_preorder_le hpos _ 0 n

/-- the counts of the branches are the nodes strictly below -/
theorem sum_count_branches (n : NodeId) :
    ((f.node n).branches.map f.count).sum = (f.enumerate n).length := by
  have hcount := h.count_eq hpos n
  rw [h.count_eq_length_walk hpos, h.length_walk hpos] at hcount
  omega

theorem ncard_above (n : NodeId) : {m | f.Above n m}.ncard = (f.enumerate n).length := by
  have hset : {m | f.Above n m} = ((f.enumerate n).toFinset : Set NodeId) := by
    ext m
    rw [List.coe_toFinset]
    exact (h.mem_enumerate_iff hpos).symm
  rw [hset, Set.ncard_coe_finset, List.toFinset_card_of_nodup (h.nodup_enumerate hpos n)]

/-! ## one round -/

theorem roundsLeft_census {c next : Census} (hround : Census.step f c = some next) :
    c.roundsLeft f = next.roundsLeft f + 1 := by
  obtain ⟨total, waiting⟩ := c
  cases waiting with
  | nil => cases hround
  | cons m rest =>
    cases hround
    simp only [Census.roundsLeft, List.map_cons, List.sum_cons, List.map_append, List.sum_append,
      List.map_reverse, List.sum_reverse, h.count_eq hpos m]
    omega

theorem roundsLeft_walk {w next : Walk} (hround : Walk.proceed f w = some next) :
    w.roundsLeft f = next.roundsLeft f + 1 := by
  rw [Walk.proceed, Walk.advance] at hround
  cases hw : w.pending f with
  | nil =>
    rw [hw] at hround
    cases hround
  | cons v rest =>
    rw [hw] at hround
    cases hround
    have hpending : Walk.pending f ⟨some v, rest⟩ =
        (f.node v.node).branches.map (⟨v.depth + 1, ·⟩) ++ rest := rfl
    rw [Walk.roundsLeft, Walk.roundsLeft, hw, hpending, List.map_append, List.map_map,
      List.sum_append, List.map_cons, List.sum_cons, h.count_eq hpos v.node]
    show _ = ((f.node v.node).branches.map f.count).sum + _ + 1
    omega

theorem roundsLeft_enumeration {e next : Enumeration}
    (hround : Enumeration.step f e = some next) :
    e.roundsLeft f = next.roundsLeft f + 1 := by
  obtain ⟨opened, closed⟩ := e
  match opened with
  | [] => cases hround
  | ⟨m, b :: rest⟩ :: outer =>
    -- the subtree of `b` was to be opened; now `b` is open, and its branches are to be opened
    rw [Enumeration.step_branch] at hround
    cases hround
    simp only [Enumeration.roundsLeft, List.map_cons, List.sum_cons, h.count_eq hpos b]
    omega
  | ⟨none, []⟩ :: outer =>
    cases hround
    exact Nat.add_comm 1 _
  | ⟨some m, []⟩ :: outer =>
    cases hround
    exact Nat.add_comm 1 _

/-! ## all rounds -/

theorem exists_rounds_census (n : NodeId) :
    ∃ rounds, Rounds (Census.step f) (Census.start n) rounds ⟨f.count n, []⟩ ∧
      rounds.length = f.count n := by
  obtain ⟨rounds, ⟨total, waiting⟩, hrounds, hleft⟩ :=
    exists_rounds_of_measure (Census.roundsLeft f)
      (fun c hended => by rw [Census.roundsLeft, Census.waiting_of_ended hended]; rfl)
      (fun _ _ => h.roundsLeft_census hpos) (Census.start n)
  have hlength : rounds.length = f.count n := hleft
  obtain rfl : waiting = [] := Census.waiting_of_ended hrounds.step_last
  -- the bound of the count lets the loop make all its rounds
  have hend := hrounds.drive_eq (hlength.trans_le (h.count_le_size hpos n))
  obtain rfl : f.count n = total := congrArg Census.total hend
  exact ⟨rounds, hrounds, hlength⟩

theorem drive_census_eq_iff {n : NodeId} {k : Nat} :
    drive (Census.step f) k (Census.start n) = ⟨f.count n, []⟩ ↔ f.count n ≤ k := by
  obtain ⟨rounds, hrounds, hlength⟩ := h.exists_rounds_census hpos n
  rw [hrounds.drive_eq_iff, hlength]

theorem exists_rounds_walk (n : NodeId) :
    ∃ rounds last, Rounds (Walk.proceed f) (Walk.start n) rounds last ∧
      rounds.map (Walk.visit? f) = (f.walk n).map some ∧ rounds.length = f.count n := by
  obtain ⟨rounds, last, hrounds, hleft⟩ :=
    exists_rounds_of_measure (Walk.roundsLeft f)
      (fun w hended => by rw [Walk.roundsLeft, Walk.pending_of_ended hended]; rfl)
      (fun _ _ => h.roundsLeft_walk hpos) (Walk.start n)
  have hlength : rounds.length = f.count n := hleft
  refine ⟨rounds, last, hrounds, ?_, hlength⟩
  rw [walk, Walk.map_take_of_rounds hrounds,
    List.take_of_length_le (hlength.trans_le (h.count_le_size hpos n))]

/-- a walk that is asked for a number of visits gives the first ones -/
theorem take_start_eq (n : NodeId) (k : Nat) : ((Walk.start n).take f k).1 = (f.walk n).take k := by
  obtain ⟨rounds, last, hrounds, hvisits, _⟩ := h.exists_rounds_walk hpos n
  have htaken := Walk.map_take_of_rounds hrounds k
  rw [List.map_take, hvisits, ← List.map_take] at htaken
  exact List.map_injective_iff.mpr (Option.some_injective Visit) htaken

theorem take_start_eq_walk_iff {n : NodeId} {k : Nat} :
    ((Walk.start n).take f k).1 = f.walk n ↔ f.count n ≤ k := by
  rw [h.take_start_eq hpos, List.take_eq_self_iff, h.count_eq_length_walk hpos]

theorem exists_rounds_enumeration (n : NodeId) :
    ∃ rounds, Rounds (Enumeration.step f) (Enumeration.start f n) rounds
        ⟨[], (f.enumerate n).reverse⟩ ∧
      rounds.length = 2 * {m | f.Above n m}.ncard + 1 := by
  obtain ⟨rounds, ⟨opened, closed⟩, hrounds, hleft⟩ :=
    exists_rounds_of_measure (Enumeration.roundsLeft f)
      (fun e hended => by rw [Enumeration.roundsLeft, Enumeration.opened_of_ended hended]; rfl)
      (fun _ _ => h.roundsLeft_enumeration hpos) (Enumeration.start f n)
  have hlength : rounds.length = 2 * (f.enumerate n).length + 1 :=
    h.sum_count_branches hpos n ▸ hleft
  obtain rfl : opened = [] := Enumeration.opened_of_ended hrounds.step_last
  have hsize := h.count_le_size hpos n
  rw [h.count_eq_length_walk hpos, h.length_walk hpos] at hsize
  -- so does the bound of the enumeration, as no subtree has more nodes than the forest
  have hend := hrounds.drive_eq (k := 2 * f.size + 1) (by omega)
  have hclosed : (f.enumerate n).reverse = closed := by
    rw [enumerate, hend, List.reverse_reverse]
  rw [hclosed, h.ncard_above hpos]
  exact ⟨rounds, hrounds, hlength⟩

theorem drive_enumeration_eq_iff {n : NodeId} {k : Nat} :
    drive (Enumeration.step f) k (Enumeration.start f n) = ⟨[], (f.enumerate n).reverse⟩ ↔
      2 * {m | f.Above n m}.ncard + 1 ≤ k := by
  obtain ⟨rounds, hrounds, hlength⟩ := h.exists_rounds_enumeration hpos n
  rw [hrounds.drive_eq_iff, hlength]

end Forest.Linked

/-! ## after every run -/

namespace Session

/-- After every run the loops that start at a living node come to an end.  Those up the parent links
come to no node twice, and to no more of them than the depth and one; a count and a walk make as
many rounds as the count says; and an enumeration makes two for each node strictly below and one
more.  So a bound of this size on the rounds of a loop, or a greater one, changes nothing, and for
the loops down the branches a smaller one always does. -/
theorem Reachable.loops_end {s : Session} (h : s.Reachable) {n : NodeId} (hn : s.Alive n) :
    (∃ rounds, Rounds (Ascent.seekRoot s.forest) ⟨(s.forest.node n).parent, n⟩ rounds
        ⟨none, s.forest.root n⟩ ∧
      (some n :: rounds.map Ascent.next).Nodup ∧ rounds.length = s.forest.depth n) ∧
    (∃ rounds, Rounds (Ascent.countLinks s.forest) ⟨(s.forest.node n).parent, 0⟩ rounds
        ⟨none, s.forest.depth n⟩ ∧
      (some n :: rounds.map Ascent.next).Nodup ∧ rounds.length = s.forest.depth n) ∧
    (∃ rounds names, Rounds (Ascent.collectNames s.forest) ⟨some n, []⟩ rounds ⟨none, names⟩ ∧
      Path.join names = s.forest.path n ∧
      (rounds.map Ascent.next).Nodup ∧ rounds.length = s.forest.depth n + 1) ∧
    (∀ b, ∃ rounds, Rounds (Ascent.seek s.forest b) ⟨some n, false⟩ rounds
        ⟨none, s.forest.under (· == b) n⟩ ∧
      (rounds.map Ascent.next).Nodup ∧ rounds.length ≤ s.forest.depth n + 1) ∧
    (∃ rounds, Rounds (Census.step s.forest) (Census.start n) rounds ⟨s.forest.count n, []⟩ ∧
      rounds.length = s.forest.count n) ∧
    (∃ rounds last, Rounds (Walk.proceed s.forest) (Walk.start n) rounds last ∧
      rounds.map (Walk.visit? s.forest) = (s.forest.walk n).map some ∧
      rounds.length = s.forest.count n) ∧
    (∃ rounds, Rounds (Enumeration.step s.forest) (Enumeration.start s.forest n) rounds
        ⟨[], (s.forest.enumerate n).reverse⟩ ∧
      rounds.length = 2 * {m | s.forest.Above n m}.ncard + 1) ∧
    (∀ k, s.forest.depth n + 1 ≤ k →
      (drive (Ascent.seekRoot s.forest) k ⟨(s.forest.node n).parent, n⟩).result =
          s.forest.root n ∧
        (drive (Ascent.countLinks s.forest) k ⟨(s.forest.node n).parent, 0⟩).result =
          s.forest.depth n ∧
        Path.join (drive (Ascent.collectNames s.forest) k ⟨some n, []⟩).result =
          s.forest.path n ∧
        ∀ b, (drive (Ascent.seek s.forest b) k ⟨some n, false⟩).result =
          s.forest.under (· == b) n) ∧
    (∀ k, s.forest.climb k n = s.forest.lineage n ↔ s.forest.depth n ≤ k) ∧
    (∀ k test, s.forest.depth n ≤ k → s.forest.climbsTo test k n = s.forest.under test n) ∧
    (∀ k, drive (Census.step s.forest) k (Census.start n) = ⟨s.forest.count n, []⟩ ↔
      s.forest.count n ≤ k) ∧
    (∀ k, ((Walk.start n).take s.forest k).1 = s.forest.walk n ↔ s.forest.count n ≤ k) ∧
    (∀ k, drive (Enumeration.step s.forest) k (Enumeration.start s.forest n) =
        ⟨[], (s.forest.enumerate n).reverse⟩ ↔
      2 * {m | s.forest.Above n m}.ncard + 1 ≤ k) := by
  have hl := h.linked
  have hpos := h.pos_size_of_alive hn
  exact ⟨hl.exists_rounds_root n, hl.exists_rounds_depth n, hl.exists_rounds_path n,
    hl.exists_rounds_under n, hl.exists_rounds_census hpos n, hl.exists_rounds_walk hpos n,
    hl.exists_rounds_enumeration hpos n, fun k => hl.result_drive_ascents,
    fun k => hl.climb_eq_lineage_iff, fun k test hk => hl.climbsTo_eq_under hk test,
    fun k => hl.drive_census_eq_iff hpos, fun k => hl.take_start_eq_walk_iff hpos,
    fun k => hl.drive_enumeration_eq_iff hpos⟩

/-- the first rail, which has one node above it and two below -/
theorem loops_end_trellis :
    (trellis.Reachable ∧ trellis.Alive 1) ∧
      (∃ rounds, Rounds (Ascent.seekRoot trellis.forest) ⟨some 0, 1⟩ rounds ⟨none, 0⟩ ∧
        (some 1 :: rounds.map Ascent.next).Nodup ∧ rounds.length = 1) ∧
      (∃ rounds, Rounds (Ascent.seek trellis.forest 4) ⟨some 1, false⟩ rounds ⟨none, false⟩ ∧
        (rounds.map Ascent.next).Nodup ∧ rounds.length ≤ 2) ∧
      (∃ rounds, Rounds (Census.step trellis.forest) (Census.start 1) rounds ⟨3, []⟩ ∧
        rounds.length = 3) ∧
      (∀ k, ((Walk.start 1).take trellis.forest k).1 = [⟨0, 1⟩, ⟨1, 3⟩, ⟨1, 4⟩] ↔ 3 ≤ k) ∧
      ∀ k, drive (Enumeration.step trellis.forest) k (Enumeration.start trellis.forest 1) =
        ⟨[], [4, 3]⟩ ↔ 5 ≤ k := by
  have hlive : trellis.Alive 1 := .anchored (.inl (by decide +kernel))
  obtain ⟨hroot, -, -, hunder, hcount, -, -, -, -, -, -, hwalk, henumerate⟩ :=
    Reachable.loops_end reachable_trellis hlive
  have hparent : (trellis.forest.node 1).parent = some 0 := by decide +kernel
  have htop : trellis.forest.root 1 = 0 := by decide +kernel
  have hdepth : trellis.forest.depth 1 = 1 := by decide +kernel
  have hmissed : trellis.forest.under (· == 4) 1 = false := by decide +kernel
  have hthree : trellis.forest.count 1 = 3 := by decide +kernel
  have hvisits : trellis.forest.walk 1 = [⟨0, 1⟩, ⟨1, 3⟩, ⟨1, 4⟩] := by decide +kernel
  have hlisted : trellis.forest.enumerate 1 = [3, 4] := by decide +kernel
  have habove : {m | trellis.forest.Above 1 m}.ncard = 2 := by
    rw [reachable_trellis.linked.ncard_above (by decide +kernel), hlisted]
    rfl
  have hseek := hunder 4
  rw [hparent, htop, hdepth] at hroot
  rw [hmissed, hdepth] at hseek
  rw [hthree] at hcount
  rw [hvisits, hthree] at hwalk
  rw [hlisted, habove] at henumerate
  exact ⟨⟨reachable_trellis, hlive⟩, hroot, hseek, hcount, hwalk, henumerate⟩

end Session
end Arbor
