import Arbor.Proofs.Subtrees

/-!
# Finding by path

Taking a path apart undoes putting it together exactly if no name holds the separator.  A lookup
never goes back, so a node is found only if it is the first branch of its name at every step down to
it.

* `Path.segments_eq_iff`       which paths read as the given names;
* `Forest.chain`               the nodes from an ancestor down to a node;
* `Forest.Shadowed`            an earlier branch of the same parent has the same name;
* `Linked.descend_eq_some_iff`  names lead down exactly the unshadowed chains;
* `Reachable.finds_exactly`    what a lookup finds after every run, and when the path of a node
                               leads back to it.
-/

namespace Arbor
namespace Path

/-! ## taking a path apart -/

theorem split_eq_splitOn (text : List Char) : split text = text.splitOn separator := by
  induction text with
  | nil => rfl
  | cons c rest ih =>
    rw [split, List.splitOn_cons_eq_if_modifyHead]
    by_cases hc : c = separator
    · rw [if_pos hc, if_pos (beq_iff_eq.mpr hc), ih]
    · rw [if_neg hc, if_neg (fun heq => hc (eq_of_beq heq)), ← ih]
      cases hrest : split rest with
      | nil => exact absurd hrest (split_ne_nil rest)
      | cons run runs => rfl

theorem separator_not_mem_of_mem_split {text run : List Char} (h : run ∈ split text) :
    separator ∉ run := by
  induction text generalizing run with
  | nil =>
    rw [split, List.mem_singleton] at h
    rw [h]
    exact List.not_mem_nil
  | cons c rest ih =>
    rw [split] at h
    by_cases hc : c = separator
    · rw [if_pos hc] at h
      rcases List.mem_cons.mp h with rfl | h
      · exact List.not_mem_nil
      · exact ih h
    · rw [if_neg hc] at h
      cases hrest : split rest with
      | nil => exact absurd hrest (split_ne_nil rest)
      | cons first runs =>
        rw [hrest] at h ih
        rcases List.mem_cons.mp h with rfl | h
        · rw [List.mem_cons, not_or]
          exact ⟨Ne.symm hc, ih List.mem_cons_self⟩
        · exact ih (List.mem_cons_of_mem first h)

theorem segments_ne_nil (path : String) : segments path ≠ [] := by
  rw [segments, Ne, List.map_eq_nil_iff]
  exact split_ne_nil path.toList

theorem separator_not_mem_of_mem_segments {path name : String} (h : name ∈ segments path) :
    separator ∉ name.toList := by
  obtain ⟨run, hrun, rfl⟩ := List.mem_map.mp h
  rw [String.toList_ofList]
  exact separator_not_mem_of_mem_split hrun

theorem join_segments (path : String) : join (segments path) = path := by
  have hback : (segments path).map String.toList = split path.toList := by
    rw [segments, List.map_map]
    exact (List.map_congr_left fun run _ => String.toList_ofList).trans (List.map_id _)
  rw [join, hback, split_eq_splitOn, List.intercalate_splitOn, String.ofList_toList]

theorem segments_join {names : List String} (hne : names ≠ [])
    (h : ∀ name ∈ names, separator ∉ name.toList) : segments (join names) = names := by
  have hruns : ∀ run ∈ names.map String.toList, separator ∉ run := by
    intro run hrun
    obtain ⟨name, hname, rfl⟩ := List.mem_map.mp hrun
    exact h name hname
  rw [segments, join, String.toList_ofList, split_eq_splitOn,
    List.splitOn_intercalate separator hruns (fun hnil => hne (List.map_eq_nil_iff.mp hnil)),
    List.map_map]
  exact (List.map_congr_left fun name _ => String.ofList_toList).trans (List.map_id _)

/-- a path reads as some names exactly if it was put together from them and none holds the
separator -/
theorem segments_eq_iff {path : String} {names : List String} (hne : names ≠ []) :
    segments path = names ↔ path = join names ∧ ∀ name ∈ names, separator ∉ name.toList := by
  constructor
  · rintro rfl
    exact ⟨(join_segments path).symm, fun name hname => separator_not_mem_of_mem_segments hname⟩
  · rintro ⟨rfl, h⟩
    exact segments_join hne h

/-! ## putting paths together -/

theorem intercalate_append (sep : List Char) {xs ys : List (List Char)} (hx : xs ≠ [])
    (hy : ys ≠ []) :
    sep.intercalate (xs ++ ys) = sep.intercalate xs ++ sep ++ sep.intercalate ys := by
  induction xs with
  | nil => exact absurd rfl hx
  | cons x rest ih =>
    cases rest with
    | nil =>
      obtain ⟨y, ys, rfl⟩ := List.exists_cons_of_ne_nil hy
      rw [List.singleton_append, List.intercalate_cons_cons, List.intercalate_singleton]
    | cons z rest =>
      rw [List.cons_append, List.cons_append, List.intercalate_cons_cons, ← List.cons_append,
        ih (List.cons_ne_nil z rest), List.intercalate_cons_cons]
      simp only [List.append_assoc]

theorem join_append {xs ys : List String} (hx : xs ≠ []) (hy : ys ≠ []) :
    join (xs ++ ys) = join xs ++ "/" ++ join ys := by
  have hsep : "/" = String.ofList [separator] := rfl
  have hruns : ∀ {names : List String}, names ≠ [] → names.map String.toList ≠ [] :=
    fun hne hnil => hne (List.map_eq_nil_iff.mp hnil)
  rw [join, List.map_append, intercalate_append _ (hruns hx) (hruns hy), String.ofList_append,
    String.ofList_append, hsep]
  rfl

end Path

namespace Forest

/-! ## chains -/

/-- the nodes from the ancestor that so many parent links lead to down to the node itself -/
def chain (f : Forest) (k : Nat) (n : NodeId) : List NodeId := (f.climb k n).reverse

/-- an earlier branch of the same parent has the same name -/
def Shadowed (f : Forest) (n : NodeId) : Prop :=
  ∃ p before after, (f.node n).parent = some p ∧ (f.node p).branches = before ++ n :: after ∧
    ∃ twin ∈ before, (f.node twin).name = (f.node n).name

theorem climb_succ_eq_append {f : Forest} {k : Nat} {n a : NodeId}
    (h : f.ancestor? (k + 1) n = some a) : f.climb (k + 1) n = f.climb k n ++ [a] := by
  induction k generalizing n with
  | zero =>
    obtain ⟨b, hb, hp⟩ := ancestor?_succ_eq_some_iff.mp h
    cases hb
    show f.climb 1 n = [n, a]
    rw [climb, hp]
    rfl
  | succ k ih =>
    obtain ⟨p, hp, hup⟩ := exists_parent_of_ancestor?_succ h
    have hcut : ∀ j, f.climb (j + 1) n = n :: f.climb j p := fun j => by rw [climb, hp]
    rw [hcut, hcut, ih hup, List.cons_append]

@[simp] theorem chain_zero (f : Forest) (n : NodeId) : f.chain 0 n = [n] := rfl

theorem chain_succ {f : Forest} {k : Nat} {n a : NodeId} (h : f.ancestor? (k + 1) n = some a) :
    f.chain (k + 1) n = a :: f.chain k n := by
  rw [chain, climb_succ_eq_append h, List.reverse_append]
  rfl

/-- a chain starts with the ancestor it is counted from -/
theorem exists_chain_eq_cons {f : Forest} {k : Nat} {n a : NodeId} (h : f.ancestor? k n = some a) :
    ∃ below, f.chain k n = a :: below := by
  cases k with
  | zero =>
    cases h
    exact ⟨[], rfl⟩
  | succ k => exact ⟨f.chain k n, chain_succ h⟩

theorem mem_chain_iff {f : Forest} {k : Nat} {n x : NodeId} : x ∈ f.chain k n ↔ x ∈ f.climb k n :=
  List.mem_reverse

theorem not_shadowed_of_root {f : Forest} {n : NodeId} (h : (f.node n).parent = none) :
    ¬ f.Shadowed n := by
  rintro ⟨p, _, _, hp, _⟩
  rw [h] at hp
  cases hp

/-! ## following names -/

namespace Linked

variable {f : Forest} (h : f.Linked)
include h

theorem lineage_eq_climb_depth (n : NodeId) : f.lineage n = f.climb (f.depth n) n :=
  (h.climb_eq_lineage_iff.mpr (Nat.le_refl _)).symm

/-- a search by name finds the branches that no earlier one of the same name hides -/
theorem find?_branches_eq_some_iff {p b : NodeId} {name : String} :
    (f.node p).branches.find? (fun b => (f.node b).name == name) = some b ↔
      (f.node b).parent = some p ∧ (f.node b).name = name ∧ ¬ f.Shadowed b := by
  rw [List.find?_eq_some_iff_append]
  constructor
  · rintro ⟨hname, before, after, hsplit, hbefore⟩
    have hmem : b ∈ (f.node p).branches := by
      rw [hsplit]
      exact List.mem_append_right before List.mem_cons_self
    refine ⟨(h.mem_branches_iff p b).mp hmem, eq_of_beq hname, ?_⟩
    rintro ⟨q, before', after', hq, hsplit', twin, htwin, htwinName⟩
    rw [(h.mem_branches_iff p b).mp hmem] at hq
    cases hq
    -- no branch is listed twice, so both cuts are made at the same place
    have honce : b ∉ before ++ after := by
      have hnodup := h.nodup_branches p
      rw [hsplit] at hnodup
      exact (List.nodup_cons.mp (List.nodup_middle.mp hnodup)).1
    rw [List.mem_append, not_or] at honce
    have hsame : before = before' :=
      ((List.append_cons_inj_of_notMem honce.1 honce.2).mp (hsplit.symm.trans hsplit')).1
    have hother := hbefore twin (hsame ▸ htwin)
    rw [htwinName, hname] at hother
    cases hother
  · rintro ⟨hp, rfl, hclear⟩
    obtain ⟨before, after, hsplit⟩ := List.append_of_mem ((h.mem_branches_iff p b).mpr hp)
    refine ⟨beq_self_eq_true _, before, after, hsplit, fun twin htwin => ?_⟩
    rw [Bool.not_eq_true', beq_eq_false_iff_ne]
    exact fun hname => hclear ⟨p, before, after, hp, hsplit, twin, htwin, hname⟩

/-- names lead from a node down the one chain that bears them, if nothing on it is shadowed -/
theorem descend_eq_some_iff {n m : NodeId} {names : List String} :
    f.descend n names = some m ↔
      ∃ k below, f.ancestor? k m = some n ∧ f.chain k m = n :: below ∧
        names = below.map (fun x => (f.node x).name) ∧ ∀ x ∈ below, ¬ f.Shadowed x := by
  induction names generalizing n with
  | nil =>
    constructor
    · intro hm
      cases hm
      exact ⟨0, [], rfl, rfl, rfl, fun x hx => (by cases hx)⟩
    · rintro ⟨k, below, hk, hchain, hnames, _⟩
      have hbelow : below = [] := List.map_eq_nil_iff.mp hnames.symm
      cases k with
      | zero =>
        cases hk
        rfl
      | succ k =>
        rw [chain_succ hk, hbelow] at hchain
        obtain ⟨b, hb, _⟩ := ancestor?_succ_eq_some_iff.mp hk
        obtain ⟨rest, hrest⟩ := exists_chain_eq_cons hb
        rw [hrest] at hchain
        cases hchain
  | cons name rest ih =>
    have hstep : f.descend n (name :: rest) = some m ↔
        ∃ b, ((f.node b).parent = some n ∧ (f.node b).name = name ∧ ¬ f.Shadowed b) ∧
          f.descend b rest = some m := by
      simp only [← h.find?_branches_eq_some_iff]
      rw [descend]
      cases (f.node n).branches.find? fun b => (f.node b).name == name with
      | none => exact ⟨fun hm => (by cases hm), fun ⟨b, hb, _⟩ => (by cases hb)⟩
      | some b =>
        constructor
        · intro hm
          exact ⟨b, rfl, hm⟩
        · rintro ⟨b', hb, hm⟩
          cases hb
          exact hm
    rw [hstep]
    constructor
    · rintro ⟨b, ⟨hp, rfl, hclear⟩, hm⟩
      obtain ⟨k, below, hk, hchain, rfl, hbelow⟩ := ih.mp hm
      have hup : f.ancestor? (k + 1) m = some n := ancestor?_succ_eq_some_iff.mpr ⟨b, hk, hp⟩
      refine ⟨k + 1, b :: below, hup, ?_, rfl, ?_⟩
      · rw [chain_succ hup, hchain]
      · intro x hx
        rcases List.mem_cons.mp hx with rfl | hx
        · exact hclear
        · exact hbelow x hx
    · rintro ⟨k, below, hk, hchain, hnames, hbelow⟩
      cases k with
      | zero =>
        cases hk
        rw [chain_zero] at hchain
        cases hchain
        cases hnames
      | succ k =>
        obtain ⟨b, hb, hp⟩ := ancestor?_succ_eq_some_iff.mp hk
        obtain ⟨lower, hlower⟩ := exists_chain_eq_cons hb
        rw [chain_succ hk, hlower] at hchain
        cases hchain
        cases hnames
        exact ⟨b, ⟨hp, rfl, hbelow b List.mem_cons_self⟩, ih.mpr ⟨k, lower, hb, hlower, rfl,
          fun x hx => hbelow x (List.mem_cons_of_mem b hx)⟩⟩

/-! ## whole paths -/

omit h in
theorem find_eq_some_iff_descend {n m : NodeId} {path : String} :
    f.find n path = some m ↔
      ∃ rest, Path.segments path = (f.node n).name :: rest ∧ f.descend n rest = some m := by
  rw [find]
  cases hsegs : Path.segments path with
  | nil => exact absurd hsegs (Path.segments_ne_nil path)
  | cons name rest =>
    show (if name = (f.node n).name then f.descend n rest else none) = some m ↔ _
    by_cases hname : name = (f.node n).name
    · rw [if_pos hname]
      constructor
      · intro hm
        exact ⟨rest, by rw [hname], hm⟩
      · rintro ⟨rest', hrest, hm⟩
        cases hrest
        exact hm
    · rw [if_neg hname]
      constructor
      · intro hm
        cases hm
      · rintro ⟨rest', hrest, _⟩
        cases hrest
        exact absurd rfl hname

/-- A lookup finds a node below exactly by the names down to it, if they can be told apart in the
path and nothing below the start is shadowed. -/
theorem find_eq_some_iff {n m : NodeId} {path : String} :
    f.find n path = some m ↔
      ∃ k, f.ancestor? k m = some n ∧
        path = Path.join ((f.chain k m).map fun x => (f.node x).name) ∧
        (∀ x ∈ f.chain k m, Path.separator ∉ (f.node x).name.toList) ∧
        ∀ x ∈ f.chain k m, x ≠ n → ¬ f.Shadowed x := by
  have hnames : ∀ {k below}, f.chain k m = n :: below →
      (Path.segments path = (f.node n).name :: below.map (fun x => (f.node x).name) ↔
        path = Path.join ((f.chain k m).map fun x => (f.node x).name) ∧
          ∀ x ∈ f.chain k m, Path.separator ∉ (f.node x).name.toList) := by
    intro k below hchain
    have hcons : (f.node n).name :: below.map (fun x => (f.node x).name) =
        (f.chain k m).map fun x => (f.node x).name := by
      rw [hchain]
      rfl
    have hne : (f.chain k m).map (fun x => (f.node x).name) ≠ [] :=
      hcons ▸ List.cons_ne_nil _ _
    rw [hcons, Path.segments_eq_iff hne, List.forall_mem_map]
  rw [find_eq_some_iff_descend]
  constructor
  · rintro ⟨rest, hsegs, hm⟩
    obtain ⟨k, below, hk, hchain, rfl, hclear⟩ := h.descend_eq_some_iff.mp hm
    obtain ⟨hpath, hsep⟩ := (hnames hchain).mp hsegs
    refine ⟨k, hk, hpath, hsep, fun x hx hne => ?_⟩
    rw [hchain, List.mem_cons] at hx
    exact hclear x (hx.resolve_left hne)
  · rintro ⟨k, hk, hpath, hsep, hclear⟩
    obtain ⟨below, hchain⟩ := exists_chain_eq_cons hk
    refine ⟨_, (hnames hchain).mpr ⟨hpath, hsep⟩,
      h.descend_eq_some_iff.mpr ⟨k, below, hk, hchain, rfl, fun x hx => ?_⟩⟩
    -- the start is met once on its chain, at the top
    have hnodup : (f.chain k m).Nodup := List.nodup_reverse.mpr (h.nodup_climb k m)
    rw [hchain, List.nodup_cons] at hnodup
    refine hclear x (hchain ▸ List.mem_cons_of_mem n hx) ?_
    rintro rfl
    exact hnodup.1 hx

/-- the path of a node is that of the chain from its root -/
theorem path_eq_join_chain (n : NodeId) :
    f.path n = Path.join ((f.chain (f.depth n) n).map fun x => (f.node x).name) := by
  rw [path, h.lineage_eq_climb_depth]
  rfl

/-- the path of a node leads back to it from its root exactly if no name on it holds the separator
and no node on it is shadowed -/
theorem find_root_path_iff {n : NodeId} :
    f.find (f.root n) (f.path n) = some n ↔
      ∀ x ∈ f.lineage n, Path.separator ∉ (f.node x).name.toList ∧ ¬ f.Shadowed x := by
  have hmem : ∀ x, x ∈ f.chain (f.depth n) n ↔ x ∈ f.lineage n := fun x => by
    rw [mem_chain_iff, h.lineage_eq_climb_depth]
  rw [h.find_eq_some_iff]
  constructor
  · rintro ⟨k, hk, _, hsep, hclear⟩ x hx
    obtain ⟨_, rfl⟩ := h.root_eq_of_ancestor? hk (h.parent_root n)
    rw [← hmem] at hx
    refine ⟨hsep x hx, ?_⟩
    by_cases hroot : x = f.root n
    · rw [hroot]
      exact not_shadowed_of_root (h.parent_root n)
    · exact hclear x hx hroot
  · intro hall
    exact ⟨f.depth n, h.ancestor?_depth n, h.path_eq_join_chain n,
      fun x hx => (hall x ((hmem x).mp hx)).1, fun x hx _ => (hall x ((hmem x).mp hx)).2⟩

end Linked
end Forest

namespace Session

/-- After every run a lookup from a living node finds a node exactly by the names on the chain down
to it, if none of them holds the separator and no node below the start has an earlier branch of its
name beside it.  So the path of a node leads back to it from its root exactly if the same holds of
its lineage. -/
theorem Reachable.finds_exactly {s : Session} (h : s.Reachable) {n : NodeId} (hn : s.Alive n) :
    (∀ m path, s.forest.find n path = some m ↔
      ∃ d, (⟨d, m⟩ : Visit) ∈ s.forest.walk n ∧
        path = Path.join ((s.forest.chain d m).map fun x => (s.forest.node x).name) ∧
        (∀ x ∈ s.forest.chain d m, Path.separator ∉ (s.forest.node x).name.toList) ∧
        ∀ x ∈ s.forest.chain d m, x ≠ n → ¬ s.forest.Shadowed x) ∧
    (s.forest.find (s.forest.root n) (s.forest.path n) = some n ↔
      ∀ x ∈ s.forest.lineage n,
        Path.separator ∉ (s.forest.node x).name.toList ∧ ¬ s.forest.Shadowed x) := by
  have hl := h.linked
  refine ⟨fun m path => ?_, hl.find_root_path_iff⟩
  rw [hl.find_eq_some_iff]
  simp only [hl.mem_walk_iff (h.pos_size_of_alive hn)]

/-- Two branches of one name, of which the second cannot be found. -/
def twins : Session :=
  (start.run [.create "root", .create "twin", .create "twin", .edit (.add 0 (.node 1)),
    .edit (.add 0 (.node 2))]).2

theorem reachable_twins : twins.Reachable := ⟨_, rfl⟩

theorem alive_twins : twins.Alive 0 ∧ twins.Alive 2 :=
  ⟨.anchored (.inl (by decide +kernel)), .anchored (.inl (by decide +kernel))⟩

/-- The path of the second twin leads to the first one, from which follows that the second one is
shadowed. -/
theorem finds_exactly_twins :
    (twins.Reachable ∧ twins.Alive 0 ∧ twins.Alive 2) ∧
      (∃ d, (⟨d, 1⟩ : Visit) ∈ twins.forest.walk 0 ∧ "root/twin" =
        Path.join ((twins.forest.chain d 1).map fun x => (twins.forest.node x).name) ∧
        ∀ x ∈ twins.forest.chain d 1, x ≠ 0 → ¬ twins.forest.Shadowed x) ∧
      twins.forest.path 2 = "root/twin" ∧ twins.forest.Shadowed 2 := by
  have hdown := (Reachable.finds_exactly reachable_twins alive_twins.1).1 1 "root/twin"
  have hback := (Reachable.finds_exactly reachable_twins alive_twins.2).2
  obtain ⟨d, hd, hpath, _, hclear⟩ := hdown.mp (by decide +kernel)
  refine ⟨⟨reachable_twins, alive_twins⟩, ⟨d, hd, hpath, hclear⟩, by decide +kernel, ?_⟩
  by_contra hfirst
  have hlineage : twins.forest.lineage 2 = [2, 0] := by decide +kernel
  have hroot : (twins.forest.node 0).parent = none := by decide +kernel
  have hmiss : twins.forest.find (twins.forest.root 2) (twins.forest.path 2) ≠ some 2 := by
    decide +kernel
  refine hmiss (hback.mpr fun x hx => ?_)
  rw [hlineage, List.mem_cons, List.mem_singleton] at hx
  rcases hx with rfl | rfl
  · exact ⟨by decide +kernel, hfirst⟩
  · exact ⟨by decide +kernel, Forest.not_shadowed_of_root hroot⟩

end Session
end Arbor
