import Arbor.Proofs.Annotations
import Arbor.Proofs.DumpTexts

/-!
# What a dump tells of a tree

The depths of the lines show which nodes are branches of which, and sorting the attributes hides in
which order they were set.  So dumps tell apart what differs in anything else, and nothing more.

* `Forest.Alike`                subtrees that differ at most in the order of attributes;
* `Linked.outline_of_alike`, `Linked.alike_of_outline_append`  they are those with the same outlines;
* `Reachable.nodup_keys`        no attribute is listed twice;
* `Reachable.dump_eq_iff_alike`  so dumps are the same exactly for such subtrees.
-/

namespace Arbor

/-! ## dictionaries in the order of their keys -/

namespace Dictionary

theorem nodup_keys_put {α : Type} {entries : Dictionary α} (h : entries.keys.Nodup) (key : String)
    (value : α) : (put key value entries).keys.Nodup := by
  by_cases hkey : key ∈ entries.keys
  · rwa [keys_put_of_mem key value entries hkey]
  · rw [keys_put_of_not_mem key value entries hkey]
    exact (List.perm_append_singleton key _).nodup_iff.mpr (List.nodup_cons.mpr ⟨hkey, h⟩)

theorem get?_eq_some_iff {α : Type} {entries : Dictionary α} (h : entries.keys.Nodup)
    {key : String} {value : α} : entries.get? key = some value ↔ (key, value) ∈ entries := by
  rw [get?, List.lookup_eq_some_iff]
  constructor
  · intro hsplit
    obtain ⟨before, after, rfl, _⟩ := hsplit
    exact List.mem_append_right before List.mem_cons_self
  · intro hmem
    obtain ⟨before, after, rfl⟩ := List.append_of_mem hmem
    refine ⟨before, after, rfl, fun entry hentry => ?_⟩
    have hout : key ∉ before.map Prod.fst := by
      rw [keys, List.map_append, List.map_cons, List.nodup_middle, List.nodup_cons] at h
      exact fun hin => h.1 (List.mem_append_left _ hin)
    rw [bne_iff_ne]
    rintro rfl
    exact hout (List.mem_map_of_mem hentry)

/-- sorted by their keys, two dictionaries are the same exactly if they give the same values -/
theorem mergeSort_eq_iff {xs ys : Dictionary String} (hx : xs.keys.Nodup) (hy : ys.keys.Nodup) :
    xs.mergeSort Node.keyLe = ys.mergeSort Node.keyLe ↔ ∀ key, xs.get? key = ys.get? key := by
  have hmem : (∀ key, xs.get? key = ys.get? key) ↔ ∀ entry, entry ∈ xs ↔ entry ∈ ys := by
    simp only [Option.ext_iff, get?_eq_some_iff hx, get?_eq_some_iff hy, Prod.forall]
  have hperm : xs.Perm ys ↔ ∀ entry, entry ∈ xs ↔ entry ∈ ys :=
    List.perm_ext_iff_of_nodup (List.Nodup.of_map _ hx) (List.Nodup.of_map _ hy)
  rw [hmem, ← hperm]
  constructor
  · intro hsorted
    have hback := List.mergeSort_perm ys Node.keyLe
    rw [← hsorted] at hback
    exact (List.mergeSort_perm xs Node.keyLe).symm.trans hback
  · intro hxy
    have htrans : ∀ a b c : String × String, Node.keyLe a b = true → Node.keyLe b c = true →
        Node.keyLe a c = true := by
      intro a b c hab hbc
      exact decide_eq_true (String.le_trans (of_decide_eq_true hab) (of_decide_eq_true hbc))
    have htotal : ∀ a b : String × String, (Node.keyLe a b || Node.keyLe b a) = true := by
      intro a b
      rw [Bool.or_eq_true]
      exact (String.le_total a.1 b.1).imp decide_eq_true decide_eq_true
    refine List.Perm.eq_of_pairwise ?_ (List.pairwise_mergeSort htrans htotal xs)
      (List.pairwise_mergeSort htrans htotal ys)
      ((List.mergeSort_perm xs _).trans (hxy.trans (List.mergeSort_perm ys _).symm))
    intro a b ha hb hab hba
    have hkey : a.1 = b.1 := String.le_antisymm (of_decide_eq_true hab) (of_decide_eq_true hba)
    have hax : a ∈ xs := (List.mergeSort_perm xs _).mem_iff.mp ha
    have hbx : b ∈ xs := hxy.mem_iff.mpr ((List.mergeSort_perm ys _).mem_iff.mp hb)
    exact List.inj_on_of_nodup_map hx hax hbx hkey

end Dictionary

/-- the items of two nodes are the same exactly if the sorted attributes and the tags are -/
theorem Node.items_eq_iff {x y : Node} :
    x.items = y.items ↔
      x.attributes.mergeSort keyLe = y.attributes.mergeSort keyLe ∧ x.tags = y.tags := by
  constructor
  · intro h
    have hentry : ∀ entries : List (String × String),
        ∀ item ∈ entries.map fun e => Item.entry e.1 e.2, ∃ name value, item = .entry name value := by
      intro entries item hitem
      obtain ⟨e, _, rfl⟩ := List.mem_map.mp hitem
      exact ⟨e.1, e.2, rfl⟩
    have htag : ∀ tags : List String,
        StartsWith (fun item => ¬ ∃ name value, item = Item.entry name value) (tags.map .tag) := by
      intro tags
      cases tags with
      | nil => exact startsWith_nil _
      | cons t rest =>
        refine startsWith_cons (p := fun item => ¬ ∃ name value, item = Item.entry name value) ?_ _
        intro ⟨name, value, h⟩
        cases h
    obtain ⟨hattributes, htags⟩ := append_inj_of_stop (hentry _) (hentry _) (htag _) (htag _) h
    refine ⟨List.map_injective_iff.mpr ?_ hattributes, List.map_injective_iff.mpr ?_ htags⟩
    · intro e e' hee
      obtain ⟨hname, hvalue⟩ := Item.entry.inj hee
      exact Prod.ext hname hvalue
    · intro t t' htt
      exact Item.tag.inj htt
  · intro h
    rw [items, items, h.1, h.2]

namespace Forest

/-! ## the same tree -/

/-- Subtrees of the same ordered shape with equal names, attributes and tags at matching positions.
The order in which attributes were set does not count, the order of tags does. -/
inductive Alike (f g : Forest) : NodeId → NodeId → Prop where
  | intro {n m : NodeId} :
    (f.node n).name = (g.node m).name →
    (∀ name, (f.node n).attributes.get? name = (g.node m).attributes.get? name) →
    (f.node n).tags = (g.node m).tags →
    List.Forall₂ (Alike f g) (f.node n).branches (g.node m).branches → Alike f g n m

/-! ## outlines -/

namespace Linked

variable {f : Forest} (hf : f.Linked)
include hf

theorem outline_unfold (d : Nat) (n : NodeId) :
    f.outline d n = f.lineAt ⟨d, n⟩ :: (f.node n).branches.flatMap (f.outline (d + 1)) := by
  rw [outline, hf.preorder_unfold, List.map_cons, List.map_flatMap]
  rfl

variable {g : Forest} (hg : g.Linked) (hfkeys : ∀ n, (f.node n).attributes.keys.Nodup)
  (hgkeys : ∀ n, (g.node n).attributes.keys.Nodup)
include hg hfkeys hgkeys

omit hf hg in
theorem lineAt_eq_iff {d e : Nat} {n m : NodeId} :
    f.lineAt ⟨d, n⟩ = g.lineAt ⟨e, m⟩ ↔ d = e ∧ (f.node n).name = (g.node m).name ∧
      (∀ name, (f.node n).attributes.get? name = (g.node m).attributes.get? name) ∧
      (f.node n).tags = (g.node m).tags := by
  rw [← Dictionary.mergeSort_eq_iff (hfkeys n) (hgkeys m), ← Node.items_eq_iff, lineAt, lineAt,
    Line.mk.injEq]

/-- By induction on the levels below the first node. -/
theorem outline_of_alike {k : Nat} {n m : NodeId}
    (hk : ∀ b i, f.ancestor? i b = some n → i < k) (h : Alike f g n m) (d : Nat) :
    f.outline d n = g.outline d m := by
  induction k generalizing d n m with
  | zero => exact absurd (hk n 0 rfl) (Nat.lt_irrefl 0)
  | succ k ih =>
    cases h with
    | intro hname hattributes htags hbranches =>
      have hline := (lineAt_eq_iff hfkeys hgkeys (d := d) (e := d)).mpr
        ⟨rfl, hname, hattributes, htags⟩
      have hpairs : List.Forall₂ (fun b c => f.outline (d + 1) b = g.outline (d + 1) c)
          (f.node n).branches (g.node m).branches := by
        have hmem := (List.forall₂_and_left _ _).mpr ⟨fun b hb => hb, hbranches⟩
        refine hmem.imp fun b c hbc => ih (fun a i ha => ?_) hbc.2 (d + 1)
        have hp := (hf.mem_branches_iff n b).mp hbc.1
        have := hk a (i + 1) (ancestor?_succ_eq_some_iff.mpr ⟨b, ha, hp⟩)
        omega
      have hmaps : (f.node n).branches.map (f.outline (d + 1)) =
          (g.node m).branches.map (g.outline (d + 1)) := by
        rw [← List.forall₂_eq_eq_eq, List.forall₂_map_left_iff, List.forall₂_map_right_iff]
        exact hpairs
      rw [hf.outline_unfold, hg.outline_unfold, hline, List.flatMap_def, List.flatMap_def, hmaps]

/-- A listing that goes on with a line which is not deeper shows where a subtree ends.  By induction
on the levels below the first node. -/
theorem alike_of_outline_append {k : Nat} {n m : NodeId}
    (hk : ∀ b i, f.ancestor? i b = some n → i < k) {d : Nat} {r s : List Line}
    (hr : StartsWith (fun x => x.depth ≤ d) r) (hs : StartsWith (fun x => x.depth ≤ d) s)
    (h : f.outline d n ++ r = g.outline d m ++ s) : Alike f g n m ∧ r = s := by
  induction k generalizing d n m r s with
  | zero => exact absurd (hk n 0 rfl) (Nat.lt_irrefl 0)
  | succ k ih =>
    rw [hf.outline_unfold, hg.outline_unfold] at h
    obtain ⟨hline, hrest⟩ := List.cons.inj h
    obtain ⟨_, hname, hattributes, htags⟩ := (lineAt_eq_iff hfkeys hgkeys).mp hline
    have hread : ∀ b ∈ (f.node n).branches, ∀ c ∈ (g.node m).branches, ∀ r s,
        StartsWith (fun x : Line => x.depth = d + 1 ∨ x.depth ≤ d) r →
        StartsWith (fun x : Line => x.depth = d + 1 ∨ x.depth ≤ d) s →
        f.outline (d + 1) b ++ r = g.outline (d + 1) c ++ s → Alike f g b c ∧ r = s := by
      intro b hb c _ r s hr hs hbc
      have hp := (hf.mem_branches_iff n b).mp hb
      refine ih (fun a i ha => ?_) (hr.imp fun x hx => by omega) (hs.imp fun x hx => by omega) hbc
      have := hk a (i + 1) (ancestor?_succ_eq_some_iff.mpr ⟨b, ha, hp⟩)
      omega
    obtain ⟨hbranches, hend⟩ := forall₂_of_flatMap_append (fun x : Line => x.depth = d + 1)
      (fun x => x.depth ≤ d) (fun x hx => by omega)
      (fun b _ => ⟨_, _, hf.outline_unfold (d + 1) b, rfl⟩)
      (fun c _ => ⟨_, _, hg.outline_unfold (d + 1) c, rfl⟩) hread hr hs hrest
    exact ⟨.intro hname hattributes htags hbranches, hend⟩

/-- outlines tell exactly what differs -/
theorem outline_eq_iff_alike {n m : NodeId} : f.outline 0 n = g.outline 0 m ↔ Alike f g n m := by
  have hlevels : ∀ b i, f.ancestor? i b = some n → i < f.size + 1 :=
    fun b i hi => hf.lt_succ_size_of_ancestor? hi
  constructor
  · intro h
    have hends := hf.alike_of_outline_append hg hfkeys hgkeys hlevels (startsWith_nil _)
      (startsWith_nil _) (congrArg (· ++ []) h)
    exact hends.1
  · intro h
    exact hf.outline_of_alike hg hfkeys hgkeys hlevels h 0

end Linked
end Forest

/-! ## sessions -/

theorem Deed.nodup_keys_on {x : Annotations} (h : x.attributes.keys.Nodup) (d : Deed) :
    (d.on x).attributes.keys.Nodup := by
  cases d with
  | reset => exact List.nodup_nil
  | set name text => exact Dictionary.nodup_keys_put h name text
  | unset name =>
    show (x.attributes.erase name).keys.Nodup
    rw [Dictionary.keys_erase]
    exact h.filter _
  | mark t => exact h

namespace Session

theorem WellFormed.nodup_keys_step {s : Session} (h : s.WellFormed)
    (hkeys : ∀ n, (s.forest.node n).attributes.keys.Nodup) (c : Command) (n : NodeId) :
    ((s.step c).2.forest.node n).attributes.keys.Nodup := by
  rw [Session.step]
  cases hdone : s.attempt c with
  | error fault =>
    show ((s.forest.settle s.living).node n).attributes.keys.Nodup
    rw [Forest.attributes_settle]
    exact hkeys n
  | ok done =>
    show ((done.session.forest.settle done.session.living).node n).attributes.keys.Nodup
    rw [Forest.attributes_settle]
    show (done.session.forest.node n).annotations.attributes.keys.Nodup
    rcases h.attempt_cases hdone with ⟨e, change, rfl, hheld, hchange, rfl⟩ | ⟨_, hgrown⟩
    · have he : ∀ m ∈ e.nodes, m < s.forest.size := fun m hm => h.lt_size_of_held (hheld m hm)
      rcases h.linked.annotations_of_edit he hchange n with ⟨d, _, hnode⟩ | ⟨_, hnode⟩
      · exact hnode ▸ Deed.nodup_keys_on (hkeys n) d
      · exact hnode ▸ hkeys n
    · exact hgrown.annotations_eq n ▸ hkeys n

namespace Reachable

/-- no attribute is listed twice, not even where a node is gone -/
theorem nodup_keys {s : Session} (h : s.Reachable) (n : NodeId) :
    (s.forest.node n).attributes.keys.Nodup := by
  obtain ⟨commands, rfl⟩ := h
  have hrun : ∀ {s : Session}, s.WellFormed → (∀ n, (s.forest.node n).attributes.keys.Nodup) →
      ∀ n, ((s.run commands).2.forest.node n).attributes.keys.Nodup := by
    induction commands with
    | nil => exact fun _ hkeys => hkeys
    | cons c rest ih => exact fun hs hkeys => ih (hs.step c).1 (hs.nodup_keys_step hkeys c)
  refine hrun wellFormed_start (fun m => ?_) n
  rw [Forest.node_of_size_le (Nat.zero_le m)]
  exact List.nodup_nil

/-- Dumps without colour of two nodes, each after its own run, are the same exactly if the subtrees
have the same ordered shape and at matching positions the same names, the same attributes in whatever
order, and the same tags in the same order.  This takes names, attribute names and tags that are
words, values without line breaks and apostrophes, and an indent of blanks. -/
theorem dump_eq_iff_alike {s t : Session} (hs : s.Reachable) (ht : t.Reachable) {n m : NodeId}
    (hn : s.Alive n) (hm : t.Alive m) (hnplain : s.forest.PlainBelow n)
    (hmplain : t.forest.PlainBelow m) {indent : String} (hne : indent ≠ "")
    (hindent : ∀ c ∈ indent.toList, c = ' ') :
    s.forest.dump false indent n = t.forest.dump false indent m ↔
      s.forest.Alike t.forest n m := by
  rw [Forest.dump_eq_iff_outline_eq hs.linked ht.linked (hs.pos_size_of_alive hn)
    (ht.pos_size_of_alive hm) hnplain hmplain hne hindent]
  exact hs.linked.outline_eq_iff_alike ht.linked hs.nodup_keys ht.nodup_keys

end Reachable

/-- a root with a branch that has two attributes and a tag -/
def sketch : Session :=
  (start.run [.create "root", .create "leaf", .edit (.add 0 (.node 1)),
    .edit (.setAttribute 1 "x" (.text "a b")), .edit (.setAttribute 1 "y" (.text "c=d")),
    .edit (.tag 1 "T")]).2

/-- the same with other numbers, the attributes set the other way round -/
def redrawing : Session :=
  (start.run [.create "leaf", .create "root", .edit (.add 1 (.node 0)),
    .edit (.setAttribute 0 "y" (.text "c=d")), .edit (.setAttribute 0 "x" (.text "a b")),
    .edit (.tag 0 "T")]).2

theorem reachable_sketch : sketch.Reachable := ⟨_, rfl⟩

theorem reachable_redrawing : redrawing.Reachable := ⟨_, rfl⟩

theorem dump_eq_iff_alike_sketch :
    (sketch.Reachable ∧ redrawing.Reachable ∧ sketch.Alive 0 ∧ redrawing.Alive 1 ∧
        sketch.forest.PlainBelow 0 ∧ redrawing.forest.PlainBelow 1 ∧
        "  " ≠ "" ∧ ∀ c ∈ "  ".toList, c = ' ') ∧
      (sketch.forest.dump false "  " 0 = redrawing.forest.dump false "  " 1 ↔
        sketch.forest.Alike redrawing.forest 0 1) ∧
      sketch.forest.dump false "  " 0 = redrawing.forest.dump false "  " 1 := by
  have hn : sketch.Alive 0 := .anchored (.inl (by decide +kernel))
  have hm : redrawing.Alive 1 := .anchored (.inl (by decide +kernel))
  have hnplain : sketch.forest.PlainBelow 0 := by
    intro k b hb
    have hall : ∀ b < sketch.forest.size, (sketch.forest.node b).Plain := by decide +kernel
    exact hall b (reachable_sketch.linked.lt_size_of_below
      (reachable_sketch.lt_size_of_alive hn) hb)
  have hmplain : redrawing.forest.PlainBelow 1 := by
    intro k b hb
    have hall : ∀ b < redrawing.forest.size, (redrawing.forest.node b).Plain := by decide +kernel
    exact hall b (reachable_redrawing.linked.lt_size_of_below
      (reachable_redrawing.lt_size_of_alive hm) hb)
  have hindent : ∀ c ∈ "  ".toList, c = ' ' := fun c hc =>
    List.eq_of_mem_replicate (n := 2) hc
  have hiff := Reachable.dump_eq_iff_alike reachable_sketch reachable_redrawing hn hm hnplain
    hmplain (by decide) hindent
  have hleaf : sketch.forest.Alike redrawing.forest 1 0 := by
    have hnode : sketch.forest.node 1 =
        ⟨"leaf", some 0, [], [("x", "a b"), ("y", "c=d")], ["T"]⟩ := by decide +kernel
    have hnode' : redrawing.forest.node 0 =
        ⟨"leaf", some 1, [], [("y", "c=d"), ("x", "a b")], ["T"]⟩ := by decide +kernel
    refine .intro (by rw [hnode, hnode']) (fun name => ?_) (by rw [hnode, hnode'])
      (by rw [hnode, hnode']; exact .nil)
    rw [hnode, hnode']
    by_cases hx : name = "x"
    · rw [hx]
      rfl
    · simp only [Dictionary.get?_cons, if_neg hx]
  have hroot : sketch.forest.Alike redrawing.forest 0 1 := by
    have hnode : sketch.forest.node 0 = ⟨"root", none, [1], [], []⟩ := by decide +kernel
    have hnode' : redrawing.forest.node 1 = ⟨"root", none, [0], [], []⟩ := by decide +kernel
    refine .intro (by rw [hnode, hnode']) (fun name => by rw [hnode, hnode']) (by rw [hnode, hnode'])
      ?_
    rw [hnode, hnode']
    exact .cons hleaf .nil
  exact ⟨⟨reachable_sketch, reachable_redrawing, hn, hm, hnplain, hmplain, by decide, hindent⟩, hiff,
    hiff.mpr hroot⟩

end Session
end Arbor
