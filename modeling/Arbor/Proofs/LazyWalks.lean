import Arbor.Forest.Walk
import Mathlib.Algebra.GroupWithZero.Nat

/-!
# Walks through a changing forest

Each request for a visit meets the forest as it is then.  A walk that was followed to its end lists
an ordered tree that need not have existed at any one time: below each occurrence of a node hang the
branches which that node had when the visit after it was asked for.

* `Walk.follow`       one request for each forest of a list;
* `Walk.reads`        the branches that were read for each visit;
* `Occurrences`       ordered trees of visits side by side, with their listing in pre-order;
* `Walk.occurrences_of_follow`  a walk that ended lists such a tree;
* `Occurrences.eq_of_families`  which is determined by what was read;
* `Walk.depth_follow`  how the depths of consecutive visits go on.
-/

namespace Arbor

/-! ## occurrences -/

/-- ordered trees side by side: the top of the first one, what hangs from it, and the other trees -/
inductive Occurrences where
  | none
  | cons (node : NodeId) (below beside : Occurrences)

namespace Occurrences

/-- the nodes at the tops of the trees -/
def tops : Occurrences → List NodeId
  | none => []
  | cons n _ beside => n :: beside.tops

/-- the listing in pre-order of trees whose tops have the given depth -/
def visits : Nat → Occurrences → List Visit
  | _, none => []
  | d, cons n below beside => ⟨d, n⟩ :: (below.visits (d + 1) ++ beside.visits d)

/-- for each occurrence, in the order of the listing, the nodes right below it -/
def families : Occurrences → List (List NodeId)
  | none => []
  | cons _ below beside => below.tops :: (below.families ++ beside.families)

theorem length_families (o : Occurrences) (d : Nat) : o.families.length = (o.visits d).length := by
  induction o generalizing d with
  | none => rfl
  | cons n below beside ihBelow ihBeside =>
    simp only [families, visits, List.length_cons, List.length_append, ihBelow (d + 1), ihBeside d]

/-- every occurrence is a top or right below another one -/
theorem map_visits_perm (o : Occurrences) (d : Nat) :
    ((o.visits d).map Visit.node).Perm (o.tops ++ o.families.flatten) := by
  induction o generalizing d with
  | none => exact List.Perm.nil
  | cons n below beside ihBelow ihBeside =>
    simp only [visits, tops, families, List.map_cons, List.map_append, List.flatten_cons,
      List.flatten_append, List.cons_append]
    refine List.Perm.cons n (List.perm_iff_count.mpr fun m => ?_)
    have hbelow := (ihBelow (d + 1)).count_eq m
    have hbeside := (ihBeside d).count_eq m
    simp only [List.count_append] at hbelow hbeside ⊢
    omega

theorem length_visits (o : Occurrences) (d : Nat) :
    (o.visits d).length = o.tops.length + (o.families.map List.length).sum := by
  have hperm := (o.map_visits_perm d).length_eq
  rwa [List.length_map, List.length_append, List.length_flatten] at hperm

/-- Trees are determined by their tops and their families, also where other families follow. -/
theorem eq_of_families_append {o o' : Occurrences} {rest rest' : List (List NodeId)}
    (htops : o.tops = o'.tops) (hfamilies : o.families ++ rest = o'.families ++ rest') :
    o = o' ∧ rest = rest' := by
  induction o generalizing o' rest rest' with
  | none =>
    cases o' with
    | none => exact ⟨rfl, hfamilies⟩
    | cons n' below' beside' => cases htops
  | cons n below beside ihBelow ihBeside =>
    cases o' with
    | none => cases htops
    | cons n' below' beside' =>
      obtain ⟨rfl, hbeside⟩ := List.cons.inj htops
      simp only [families, List.cons_append, List.append_assoc] at hfamilies
      obtain ⟨hbelow, hfollowing⟩ := List.cons.inj hfamilies
      obtain ⟨rfl, hlater⟩ := ihBelow hbelow hfollowing
      obtain ⟨rfl, hrest⟩ := ihBeside hbeside hlater
      exact ⟨rfl, hrest⟩

theorem eq_of_families {o o' : Occurrences} (htops : o.tops = o'.tops)
    (hfamilies : o.families = o'.families) : o = o' := by
  have hsame : o.families ++ [] = o'.families ++ [] := by rw [hfamilies]
  exact (eq_of_families_append htops hsame).1

/-- puts single trees side by side, each given by its first visit and what hangs from it -/
def gather : List (Visit × Occurrences) → Occurrences
  | [] => none
  | (v, below) :: rest => cons v.node below (gather rest)

theorem tops_gather (trees : List (Visit × Occurrences)) :
    (gather trees).tops = (trees.map Prod.fst).map Visit.node := by
  induction trees with
  | nil => rfl
  | cons tree rest ih =>
    show tree.1.node :: (gather rest).tops = _
    rw [ih]
    rfl

theorem visits_gather {trees : List (Visit × Occurrences)} {d : Nat}
    (hd : ∀ v ∈ trees.map Prod.fst, v.depth = d) :
    (gather trees).visits d = trees.flatMap fun tree => tree.1 :: tree.2.visits (tree.1.depth + 1) := by
  induction trees with
  | nil => rfl
  | cons tree rest ih =>
    obtain ⟨⟨e, n⟩, below⟩ := tree
    have he : e = d := hd ⟨e, n⟩ List.mem_cons_self
    have hrest : ∀ v ∈ rest.map Prod.fst, v.depth = d := fun v hv =>
      hd v (List.mem_cons_of_mem _ hv)
    show ⟨d, n⟩ :: (below.visits (d + 1) ++ (gather rest).visits d) = _
    rw [ih hrest, List.flatMap_cons, he]
    rfl

theorem families_gather (trees : List (Visit × Occurrences)) :
    (gather trees).families = trees.flatMap fun tree => tree.2.tops :: tree.2.families := by
  induction trees with
  | nil => rfl
  | cons tree rest ih =>
    show tree.2.tops :: (tree.2.families ++ (gather rest).families) = _
    rw [ih]
    rfl

end Occurrences

/-! ## following a walk -/

namespace Walk

/-- one request for each forest; a walk that has ended gives no more visits -/
def follow : List Forest → Walk → List Visit × Walk
  | [], w => ([], w)
  | f :: rest, w =>
    match w.advance f with
    | none => ([], finished)
    | some (v, next) =>
      let (visits, after) := follow rest next
      (v :: visits, after)

/-- the branches of each visited node in the forest that the request after its own met -/
def reads (forests : List Forest) (visits : List Visit) : List (List NodeId) :=
  List.zipWith (fun v f => (f.node v.node).branches) visits forests.tail

theorem follow_cons_of_pending_nil {f : Forest} {w : Walk} (h : w.pending f = [])
    (rest : List Forest) : w.follow (f :: rest) = ([], finished) := by
  rw [follow, advance, h]

theorem follow_cons_of_pending_cons {f : Forest} {w : Walk} {v : Visit} {waiting : List Visit}
    (h : w.pending f = v :: waiting) (rest : List Forest) :
    w.follow (f :: rest) =
      (v :: (follow rest ⟨some v, waiting⟩).1, (follow rest ⟨some v, waiting⟩).2) := by
  rw [follow, advance, h]

theorem follow_finished (forests : List Forest) : finished.follow forests = ([], finished) := by
  cases forests with
  | nil => rfl
  | cons f rest => exact follow_cons_of_pending_nil rfl rest

theorem follow_append (first second : List Forest) (w : Walk) :
    w.follow (first ++ second) =
      ((w.follow first).1 ++ ((w.follow first).2.follow second).1,
        ((w.follow first).2.follow second).2) := by
  induction first generalizing w with
  | nil => rfl
  | cons f rest ih =>
    rw [List.cons_append]
    cases hw : w.pending f with
    | nil =>
      rw [follow_cons_of_pending_nil hw, follow_cons_of_pending_nil hw, follow_finished]
      rfl
    | cons v waiting =>
      rw [follow_cons_of_pending_cons hw, follow_cons_of_pending_cons hw, ih]
      rfl

theorem length_follow_le (forests : List Forest) (w : Walk) :
    (w.follow forests).1.length ≤ forests.length := by
  induction forests generalizing w with
  | nil => exact Nat.le_refl 0
  | cons f rest ih =>
    cases hw : w.pending f with
    | nil =>
      rw [follow_cons_of_pending_nil hw]
      exact Nat.zero_le _
    | cons v waiting =>
      rw [follow_cons_of_pending_cons hw]
      exact Nat.succ_le_succ (ih _)

/-- several visits at once are as many requests while nothing changes; the walk has ended when one
of them gave no visit -/
theorem take_eq_follow (f : Forest) (k : Nat) (w : Walk) :
    w.take f k = ((w.follow (List.replicate k f)).1,
      decide ((w.follow (List.replicate k f)).1.length < k), (w.follow (List.replicate k f)).2) := by
  induction k generalizing w with
  | zero => rfl
  | succ k ih =>
    rw [List.replicate_succ, take, advance]
    cases hw : w.pending f with
    | nil =>
      rw [follow_cons_of_pending_nil hw]
      simp
    | cons v waiting =>
      rw [follow_cons_of_pending_cons hw]
      show (v :: (take f k ⟨some v, waiting⟩).1, (take f k ⟨some v, waiting⟩).2.1,
        (take f k ⟨some v, waiting⟩).2.2) = _
      rw [ih]
      simp

/-- A walk does not tell forests apart that agree on the branches below the nodes it refers to. -/
theorem follow_congr {f g : Forest} {p : NodeId → Prop} {w : Walk} (hw : ∀ m ∈ w.nodes, p m)
    (hbranches : ∀ n, p n → ∀ b ∈ (f.node n).branches, p b)
    (hsame : ∀ n, p n → (g.node n).branches = (f.node n).branches) {k : Nat} :
    w.follow (List.replicate k g) = w.follow (List.replicate k f) := by
  induction k generalizing w with
  | zero => rfl
  | succ k ih =>
    have hpending : w.pending g = w.pending f := by
      obtain ⟨last, waiting⟩ := w
      cases last with
      | none => rfl
      | some v =>
        show (g.node v.node).branches.map _ ++ waiting = (f.node v.node).branches.map _ ++ waiting
        rw [hsame v.node (hw v.node List.mem_cons_self)]
    have hnext : ∀ v ∈ w.pending f, p v.node := fun v hv => node_mem_of_mem_pending hw hbranches hv
    rw [List.replicate_succ, List.replicate_succ]
    cases hf : w.pending f with
    | nil => rw [follow_cons_of_pending_nil hf, follow_cons_of_pending_nil (hpending.trans hf)]
    | cons v waiting =>
      rw [hf] at hnext
      have hrest : ∀ m ∈ (⟨some v, waiting⟩ : Walk).nodes, p m := fun m hm => by
        obtain ⟨u, hu, rfl⟩ := List.mem_map.mp hm
        exact hnext u hu
      rw [follow_cons_of_pending_cons hf, follow_cons_of_pending_cons (hpending.trans hf), ih hrest]

/-! ## what a walk lists -/

/-- A walk that was followed to its end lists, for each visit that was pending, a tree with that
visit first. -/
theorem exists_trees_of_follow {f : Forest} {rest : List Forest} {w : Walk}
    (hend : (w.follow (f :: rest)).1.length < rest.length + 1) :
    ∃ trees : List (Visit × Occurrences), trees.map Prod.fst = w.pending f ∧
      (w.follow (f :: rest)).1 =
        trees.flatMap (fun tree => tree.1 :: tree.2.visits (tree.1.depth + 1)) ∧
      reads (f :: rest) (w.follow (f :: rest)).1 =
        trees.flatMap (fun tree => tree.2.tops :: tree.2.families) := by
  induction rest generalizing f w with
  | nil =>
    cases hw : w.pending f with
    | nil =>
      rw [follow_cons_of_pending_nil hw]
      exact ⟨[], rfl, rfl, rfl⟩
    | cons v waiting =>
      rw [follow_cons_of_pending_cons hw] at hend
      simp at hend
  | cons g rest ih =>
    cases hw : w.pending f with
    | nil =>
      rw [follow_cons_of_pending_nil hw]
      exact ⟨[], rfl, rfl, rfl⟩
    | cons v waiting =>
      rw [follow_cons_of_pending_cons hw] at hend ⊢
      have hend' : (follow (g :: rest) ⟨some v, waiting⟩).1.length < rest.length + 1 :=
        Nat.lt_of_succ_lt_succ hend
      obtain ⟨trees, htrees, hvisits, hreads⟩ := ih hend'
      -- the trees of the branches that are read now hang from `v`, the others wait beside it
      have hpending : trees.map Prod.fst =
          (g.node v.node).branches.map (⟨v.depth + 1, ·⟩) ++ waiting := htrees
      obtain ⟨below, beside, rfl, hbelow, hbeside⟩ := List.map_eq_append_iff.mp hpending
      have hdepth : ∀ u ∈ below.map Prod.fst, u.depth = v.depth + 1 := by
        intro u hu
        rw [hbelow] at hu
        obtain ⟨b, _, rfl⟩ := List.mem_map.mp hu
        rfl
      have htops : (Occurrences.gather below).tops = (g.node v.node).branches := by
        rw [Occurrences.tops_gather, hbelow, List.map_map]
        exact List.map_id _
      refine ⟨(v, Occurrences.gather below) :: beside, ?_, ?_, ?_⟩
      · rw [List.map_cons, hbeside]
      · rw [List.flatMap_cons, Occurrences.visits_gather hdepth, List.cons_append,
          ← List.flatMap_append, ← hvisits]
      · rw [List.flatMap_cons, htops, Occurrences.families_gather, List.cons_append,
          ← List.flatMap_append, ← hreads]
        rfl

/-- a walk that was followed to its end lists one tree with its start at the top -/
theorem occurrences_of_follow {forests : List Forest} {n : NodeId}
    (hend : ((start n).follow forests).1.length < forests.length) :
    ∃ o : Occurrences, o.tops = [n] ∧ o.visits 0 = ((start n).follow forests).1 ∧
      o.families = reads forests ((start n).follow forests).1 := by
  cases forests with
  | nil => cases hend
  | cons f rest =>
    obtain ⟨trees, htrees, hvisits, hreads⟩ := exists_trees_of_follow hend
    have hstart : trees.map Prod.fst = [⟨0, n⟩] := htrees
    have hdepth : ∀ v ∈ trees.map Prod.fst, v.depth = 0 := by
      intro v hv
      rw [hstart, List.mem_singleton] at hv
      rw [hv]
    refine ⟨Occurrences.gather trees, ?_, ?_, ?_⟩
    · rw [Occurrences.tops_gather, hstart]
      rfl
    · rw [Occurrences.visits_gather hdepth, hvisits]
    · rw [Occurrences.families_gather, hreads]

/-! ## depths -/

/-- no visit is deeper than one before it in the list -/
def Rising (visits : List Visit) : Prop := visits.Pairwise fun u v => v.depth ≤ u.depth

theorem rising_pending {v : Visit} {waiting : List Visit} (h : Rising (v :: waiting)) (f : Forest) :
    Rising (pending f ⟨some v, waiting⟩) := by
  obtain ⟨hfirst, hwaiting⟩ := List.pairwise_cons.mp h
  refine List.pairwise_append.mpr ⟨?_, hwaiting, fun u hu x hx => ?_⟩
  · exact List.pairwise_map.mpr (List.pairwise_of_forall fun _ _ => Nat.le_refl _)
  · obtain ⟨b, _, rfl⟩ := List.mem_map.mp hu
    exact Nat.le_succ_of_le (hfirst x hx)

/-- the next visit is one level deeper if there is a branch to visit, and no deeper otherwise -/
theorem depth_of_pending {f : Forest} {u v : Visit} {waiting rest : List Visit}
    (h : Rising (u :: waiting)) (hv : pending f ⟨some u, waiting⟩ = v :: rest) :
    v.depth ≤ u.depth + 1 ∧ (v.depth = u.depth + 1 ↔ (f.node u.node).branches ≠ []) := by
  replace hv : (f.node u.node).branches.map (⟨u.depth + 1, ·⟩) ++ waiting = v :: rest := hv
  cases hbranches : (f.node u.node).branches with
  | nil =>
    rw [hbranches] at hv
    have hmem : v ∈ waiting := by
      show v ∈ [] ++ waiting
      rw [← List.map_nil (f := fun b => (⟨u.depth + 1, b⟩ : Visit)), hv]
      exact List.mem_cons_self
    have hle : v.depth ≤ u.depth := (List.pairwise_cons.mp h).1 v hmem
    exact ⟨Nat.le_succ_of_le hle, fun he => by omega, fun hne => absurd rfl hne⟩
  | cons b others =>
    rw [hbranches] at hv
    cases hv
    exact ⟨Nat.le_refl _, fun _ => List.cons_ne_nil b others, fun _ => rfl⟩

theorem depth_follow_of_rising {forests : List Forest} {u : Visit} {waiting : List Visit}
    (h : Rising (u :: waiting)) {i : Nat} {v v' : Visit} {f : Forest}
    (hv : (u :: (follow forests ⟨some u, waiting⟩).1)[i]? = some v)
    (hv' : (follow forests ⟨some u, waiting⟩).1[i]? = some v') (hf : forests[i]? = some f) :
    v'.depth ≤ v.depth + 1 ∧ (v'.depth = v.depth + 1 ↔ (f.node v.node).branches ≠ []) := by
  induction forests generalizing u waiting i with
  | nil => cases hf
  | cons g rest ih =>
    cases hw : pending g ⟨some u, waiting⟩ with
    | nil =>
      rw [follow_cons_of_pending_nil hw] at hv'
      cases hv'
    | cons x others =>
      rw [follow_cons_of_pending_cons hw] at hv hv'
      cases i with
      | zero =>
        cases hv
        cases hv'
        cases hf
        exact depth_of_pending h hw
      | succ i => exact ih (hw ▸ rising_pending h g) hv hv' hf

/-- from one visit to the next the depth grows by one where a branch was found, and does not grow
otherwise -/
theorem depth_follow {forests : List Forest} {n : NodeId} {i : Nat} {v v' : Visit}
    {branches : List NodeId} (hv : ((start n).follow forests).1[i]? = some v)
    (hv' : ((start n).follow forests).1[i + 1]? = some v')
    (hread : (reads forests ((start n).follow forests).1)[i]? = some branches) :
    v'.depth ≤ v.depth + 1 ∧ (v'.depth = v.depth + 1 ↔ branches ≠ []) := by
  cases forests with
  | nil => cases hv
  | cons f rest =>
    have hfirst : (start n).pending f = [⟨0, n⟩] := rfl
    rw [reads, List.getElem?_zipWith, hv] at hread
    rw [follow_cons_of_pending_cons hfirst] at hv hv'
    cases hf : rest[i]? with
    | none =>
      rw [List.tail_cons, hf] at hread
      cases hread
    | some g =>
      rw [List.tail_cons, hf] at hread
      cases hread
      exact depth_follow_of_rising (List.pairwise_singleton _ _) hv hv' hf

end Walk
end Arbor
