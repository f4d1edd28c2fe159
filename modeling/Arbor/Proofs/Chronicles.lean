import Arbor.Forest.Basic

/-!
# Chronicles

What a list of keys holds in the end, told from what was put and what was ended step by step.  The
steps are counted from 0.

* `Chronicle.Stands`     a key was put at a step and not ended later;
* `Chronicle.Lists`      a list holds the keys that stand, in the order of their earliest steps;
* `Deed`                 what can be done to the attributes and the tags of a node;
* `Annotations.Follows`  the attributes and the tags are what the deeds of all steps say.
-/

namespace Arbor

/-! ## keys that stand -/

/-- which keys are put at each step, and which are ended -/
structure Chronicle (κ : Type) where
  puts : Nat → κ → Prop
  ends : Nat → κ → Prop

namespace Chronicle

variable {κ : Type}

/-- the key is put at step `i`, one of the first `t` steps, and none of them ends it after that -/
def Stands (c : Chronicle κ) (t : Nat) (k : κ) (i : Nat) : Prop :=
  i < t ∧ c.puts i k ∧ ∀ j, i < j → j < t → ¬ c.ends j k

/-- The keys that stand after `t` steps, each once, in the order in which each was put first since it
was ended for the last time. -/
structure Lists (c : Chronicle κ) (t : Nat) (keys : List κ) : Prop where
  nodup : keys.Nodup
  mem_iff : ∀ k, k ∈ keys ↔ ∃ i, c.Stands t k i
  inOrder : keys.Pairwise fun k l => ∃ i, c.Stands t k i ∧ ∀ j, c.Stands t l j → i < j

variable {c : Chronicle κ} {t : Nat}

theorem not_stands_zero (k : κ) (i : Nat) : ¬ c.Stands 0 k i := fun h => Nat.not_lt_zero i h.1

theorem stands_succ_iff {k : κ} {i : Nat} :
    c.Stands (t + 1) k i ↔ i = t ∧ c.puts t k ∨ c.Stands t k i ∧ ¬ c.ends t k := by
  constructor
  · intro h
    obtain ⟨hlt, hput, hend⟩ := h
    by_cases hi : i = t
    · exact Or.inl ⟨hi, hi ▸ hput⟩
    · refine Or.inr ⟨⟨by omega, hput, fun j hij hj => hend j hij (by omega)⟩, ?_⟩
      exact hend t (by omega) (Nat.lt_succ_self t)
  · intro h
    rcases h with ⟨rfl, hput⟩ | ⟨⟨hlt, hput, hend⟩, hlast⟩
    · exact ⟨Nat.lt_succ_self i, hput, fun j hij hj => absurd hj (by omega)⟩
    · refine ⟨Nat.lt_succ_of_lt hlt, hput, fun j hij hj => ?_⟩
      by_cases hjt : j = t
      · exact hjt ▸ hlast
      · exact hend j hij (by omega)

theorem exists_stands_succ_iff {k : κ} :
    (∃ i, c.Stands (t + 1) k i) ↔ c.puts t k ∨ (∃ i, c.Stands t k i) ∧ ¬ c.ends t k := by
  simp only [stands_succ_iff, exists_or, exists_eq_left, exists_and_right]

namespace Lists

theorem zero : c.Lists 0 [] where
  nodup := List.nodup_nil
  mem_iff k := by
    refine iff_of_false List.not_mem_nil ?_
    rintro ⟨i, hi⟩
    exact not_stands_zero k i hi
  inOrder := List.Pairwise.nil

/-- a step that puts nothing: what it ends is left out of the list -/
theorem filter {keys : List κ} (h : c.Lists t keys) (hput : ∀ k, ¬ c.puts t k) {keep : κ → Bool}
    (hkeep : ∀ k, keep k = true ↔ ¬ c.ends t k) : c.Lists (t + 1) (keys.filter keep) where
  nodup := h.nodup.filter keep
  mem_iff k := by
    rw [List.mem_filter, h.mem_iff, hkeep, exists_stands_succ_iff, or_iff_right (hput k)]
  inOrder := by
    refine List.Pairwise.imp_of_mem ?_ (h.inOrder.filter keep)
    intro k l hk hl hkl
    obtain ⟨i, hi, hfirst⟩ := hkl
    have hend : ¬ c.ends t k := (hkeep k).mp (List.mem_filter.mp hk).2
    refine ⟨i, stands_succ_iff.mpr (Or.inr ⟨hi, hend⟩), fun j hj => ?_⟩
    rcases stands_succ_iff.mp hj with ⟨_, hl⟩ | ⟨hj, _⟩
    · exact absurd hl (hput l)
    · exact hfirst j hj

theorem clear {keys : List κ} (h : c.Lists t keys) (hput : ∀ k, ¬ c.puts t k)
    (hend : ∀ k, c.ends t k) : c.Lists (t + 1) [] := by
  have hnone := h.filter hput fun k => iff_of_false Bool.false_ne_true (not_not_intro (hend k))
  rwa [List.filter_eq_nil_iff.mpr fun _ _ => Bool.false_ne_true] at hnone

theorem idle {keys : List κ} (h : c.Lists t keys) (hput : ∀ k, ¬ c.puts t k)
    (hend : ∀ k, ¬ c.ends t k) : c.Lists (t + 1) keys := by
  have hall := h.filter hput fun k => iff_of_true rfl (hend k)
  rwa [List.filter_eq_self.mpr fun _ _ => rfl] at hall

/-- a step that puts one key and ends none: the key comes last unless it is there -/
theorem put [DecidableEq κ] {keys : List κ} (h : c.Lists t keys) {k : κ}
    (hput : ∀ l, c.puts t l ↔ l = k) (hend : ∀ l, ¬ c.ends t l) :
    c.Lists (t + 1) (if k ∈ keys then keys else keys ++ [k]) := by
  have hold : ∀ {l i}, c.Stands t l i → c.Stands (t + 1) l i :=
    fun hi => stands_succ_iff.mpr (Or.inr ⟨hi, hend _⟩)
  have hmem : ∀ l, (l ∈ keys ∨ l = k) ↔ ∃ i, c.Stands (t + 1) l i := by
    intro l
    rw [exists_stands_succ_iff, h.mem_iff, hput, and_iff_left (hend l), or_comm]
  have hinOrder : keys.Pairwise fun l m =>
      ∃ i, c.Stands (t + 1) l i ∧ ∀ j, c.Stands (t + 1) m j → i < j := by
    refine h.inOrder.imp fun {l m} hlm => ?_
    obtain ⟨i, hi, hfirst⟩ := hlm
    refine ⟨i, hold hi, fun j hj => ?_⟩
    rcases stands_succ_iff.mp hj with ⟨rfl, _⟩ | ⟨hj, _⟩
    · exact hi.1
    · exact hfirst j hj
  by_cases hk : k ∈ keys
  · rw [if_pos hk]
    refine ⟨h.nodup, fun l => ?_, hinOrder⟩
    rw [← hmem l]
    exact ⟨Or.inl, fun hl => hl.elim id fun hl => hl ▸ hk⟩
  · rw [if_neg hk]
    refine ⟨?_, fun l => ?_, ?_⟩
    · exact (List.perm_append_singleton k keys).nodup_iff.mpr (List.nodup_cons.mpr ⟨hk, h.nodup⟩)
    · rw [← hmem l, List.mem_append, List.mem_singleton]
    · refine List.pairwise_append.mpr ⟨hinOrder, List.pairwise_singleton _ _, ?_⟩
      intro l hl m hm
      rw [List.mem_singleton.mp hm]
      obtain ⟨i, hi⟩ := (h.mem_iff l).mp hl
      refine ⟨i, hold hi, fun j hj => ?_⟩
      -- the new key did not stand before, so its only step is the last one
      rcases stands_succ_iff.mp hj with ⟨rfl, _⟩ | ⟨hj, _⟩
      · exact hi.1
      · exact absurd ((h.mem_iff k).mpr ⟨j, hj⟩) hk

end Lists
end Chronicle

/-! ## attributes and tags -/

structure Annotations where
  attributes : Dictionary String
  tags : List String
  deriving DecidableEq

def Node.annotations (node : Node) : Annotations := ⟨node.attributes, node.tags⟩

/-- what can be done to the attributes and the tags of a node -/
inductive Deed where
  | reset
  | set (name text : String)
  | unset (name : String)
  | mark (tag : String)
  deriving DecidableEq

def Deed.on (x : Annotations) : Deed → Annotations
  | .reset => ⟨[], []⟩
  | .set name text => { x with attributes := Dictionary.put name text x.attributes }
  | .unset name => { x with attributes := x.attributes.erase name }
  | .mark t => { x with tags := if t ∈ x.tags then x.tags else x.tags ++ [t] }

namespace Deed

/-- names are put when they are set, with whatever text, and ended when they are unset or all is
reset -/
def names (did : Nat → Deed → Prop) : Chronicle String where
  puts i name := ∃ text, did i (.set name text)
  ends i name := did i .reset ∨ did i (.unset name)

/-- a name with its text is ended as the name is, and when the name is set again -/
def entries (did : Nat → Deed → Prop) : Chronicle (String × String) where
  puts i entry := did i (.set entry.1 entry.2)
  ends i entry := did i .reset ∨ did i (.unset entry.1) ∨ ∃ text, did i (.set entry.1 text)

def tags (did : Nat → Deed → Prop) : Chronicle String where
  puts i t := did i (.mark t)
  ends i _ := did i .reset

end Deed

namespace Annotations

/-- the annotations after `t` steps are what was done at these steps -/
structure Follows (did : Nat → Deed → Prop) (t : Nat) (x : Annotations) : Prop where
  names : (Deed.names did).Lists t x.attributes.keys
  values : ∀ name text, x.attributes.get? name = some text ↔
    ∃ i, (Deed.entries did).Stands t (name, text) i
  tags : (Deed.tags did).Lists t x.tags

namespace Follows

variable {did : Nat → Deed → Prop} {t : Nat} {x : Annotations}

theorem zero : Follows did 0 ⟨[], []⟩ where
  names := .zero
  values name text := by
    refine iff_of_false (Option.some_ne_none text).symm ?_
    rintro ⟨i, hi⟩
    exact Chronicle.not_stands_zero _ i hi
  tags := .zero

/-- a step that does nothing to the annotations -/
theorem idle (h : Follows did t x) (hd : ∀ d, ¬ did t d) : Follows did (t + 1) x where
  names := h.names.idle (fun _ hset => hset.elim fun _ => hd _) fun _ hend => hend.elim (hd _) (hd _)
  values name text := by
    rw [h.values, Chronicle.exists_stands_succ_iff]
    simp [Deed.entries, hd]
  tags := h.tags.idle (fun _ => hd _) fun _ => hd _

/-- a step that does one thing to the annotations -/
theorem on (h : Follows did t x) {d : Deed} (hd : ∀ e, did t e ↔ e = d) :
    Follows did (t + 1) (d.on x) := by
  cases d with
  | reset =>
    refine ⟨?_, fun name text => ?_, ?_⟩
    · exact h.names.clear (by simp [Deed.names, hd]) (by simp [Deed.names, hd])
    · rw [Chronicle.exists_stands_succ_iff]
      simp [Deed.entries, hd, Deed.on]
    · exact h.tags.clear (by simp [Deed.tags, hd]) (by simp [Deed.tags, hd])
  | set name text =>
    refine ⟨?_, fun other value => ?_, ?_⟩
    · have hput := h.names.put (k := name) (by simp [Deed.names, hd]) (by simp [Deed.names, hd])
      show (Deed.names did).Lists (t + 1) (Dictionary.put name text x.attributes).keys
      by_cases hname : name ∈ x.attributes.keys
      · rw [Dictionary.keys_put_of_mem _ _ _ hname]
        rwa [if_pos hname] at hput
      · rw [Dictionary.keys_put_of_not_mem _ _ _ hname]
        rwa [if_neg hname] at hput
    · rw [Chronicle.exists_stands_succ_iff, ← h.values]
      show (Dictionary.put name text x.attributes).get? other = some value ↔ _
      by_cases hother : other = name
      · rw [hother, Dictionary.get?_put_self]
        simp [Deed.entries, hd, eq_comm]
      · rw [Dictionary.get?_put_of_ne hother]
        simp [Deed.entries, hd, hother]
    · exact h.tags.idle (by simp [Deed.tags, hd]) (by simp [Deed.tags, hd])
  | unset name =>
    refine ⟨?_, fun other value => ?_, ?_⟩
    · show (Deed.names did).Lists (t + 1) (x.attributes.erase name).keys
      rw [Dictionary.keys_erase]
      exact h.names.filter (by simp [Deed.names, hd]) (by simp [Deed.names, hd])
    · rw [Chronicle.exists_stands_succ_iff, ← h.values]
      show (x.attributes.erase name).get? other = some value ↔ _
      by_cases hother : other = name
      · rw [hother, Dictionary.get?_erase_self]
        simp [Deed.entries, hd]
      · rw [Dictionary.get?_erase_of_ne hother]
        simp [Deed.entries, hd, hother]
    · exact h.tags.idle (by simp [Deed.tags, hd]) (by simp [Deed.tags, hd])
  | mark tag =>
    refine ⟨?_, fun name text => ?_, ?_⟩
    · exact h.names.idle (by simp [Deed.names, hd]) (by simp [Deed.names, hd])
    · rw [Chronicle.exists_stands_succ_iff, ← h.values]
      simp [Deed.entries, hd, Deed.on]
    · exact h.tags.put (by simp [Deed.tags, hd]) (by simp [Deed.tags, hd])

end Follows
end Annotations
end Arbor
