import Arbor.Proofs.Paths

/-!
# Lookups in two parts

A path read up to a separator is a path, and so is what follows.  A lookup keeps nothing but the
node where it stands, so it can stop at the separator and start again from that node, whose name
then stands for the way behind it.  This holds in any forest, as a lookup reads names downwards and
no parent links.

* `Path.segments_append`         the segments of two paths with a separator between them;
* `Forest.descend_append`        names followed in two parts;
* `Forest.separator_not_mem_of_find`  no found node has a separator in its name;
* `Forest.find_resumed`          lookups in two parts.
-/

namespace Arbor
namespace Path

theorem segments_append (p q : String) : segments (p ++ "/" ++ q) = segments p ++ segments q := by
  have hne : segments p ++ segments q ≠ [] :=
    List.append_ne_nil_of_left_ne_nil (segments_ne_nil p) (segments q)
  refine (segments_eq_iff hne).mpr ⟨?_, fun name hname => ?_⟩
  · rw [join_append (segments_ne_nil p) (segments_ne_nil q), join_segments, join_segments]
  · exact (List.mem_append.mp hname).elim separator_not_mem_of_mem_segments
      separator_not_mem_of_mem_segments

/-- a name without a separator is a path of one segment -/
theorem segments_of_not_mem {name : String} (h : separator ∉ name.toList) :
    segments name = [name] := by
  have hjoin : join [name] = name := by
    rw [join, List.map_singleton, List.intercalate_singleton, String.ofList_toList]
  refine (segments_eq_iff (List.cons_ne_nil name [])).mpr ⟨hjoin.symm, fun other hother => ?_⟩
  rwa [List.mem_singleton.mp hother]

end Path

namespace Forest

/-! ## names -/

theorem descend_append (f : Forest) (n : NodeId) (names more : List String) :
    f.descend n (names ++ more) = (f.descend n names).bind fun m => f.descend m more := by
  induction names generalizing n with
  | nil => rfl
  | cons name rest ih =>
    rw [List.cons_append, descend, descend]
    cases (f.node n).branches.find? fun b => (f.node b).name == name with
    | none => rfl
    | some b => exact ih b

/-- names that can be segments lead to nodes that have such names -/
theorem separator_not_mem_of_descend {f : Forest} {n m : NodeId} {names : List String}
    (hn : Path.separator ∉ (f.node n).name.toList)
    (hnames : ∀ name ∈ names, Path.separator ∉ name.toList) (hm : f.descend n names = some m) :
    Path.separator ∉ (f.node m).name.toList := by
  induction names generalizing n with
  | nil =>
    cases hm
    exact hn
  | cons name rest ih =>
    rw [descend] at hm
    cases hb : (f.node n).branches.find? fun b => (f.node b).name == name with
    | none =>
      rw [hb] at hm
      cases hm
    | some b =>
      rw [hb] at hm
      have hname : (f.node b).name = name := eq_of_beq (List.find?_some hb :)
      exact ih (hname ▸ hnames name List.mem_cons_self)
        (fun other hother => hnames other (List.mem_cons_of_mem name hother)) hm

/-! ## paths -/

theorem separator_not_mem_of_find {f : Forest} {n m : NodeId} {path : String}
    (hm : f.find n path = some m) : Path.separator ∉ (f.node m).name.toList := by
  obtain ⟨rest, hsegs, hdown⟩ := Linked.find_eq_some_iff_descend.mp hm
  have hclear : ∀ name ∈ (f.node n).name :: rest, Path.separator ∉ name.toList :=
    fun name hname => Path.separator_not_mem_of_mem_segments (hsegs ▸ hname)
  exact separator_not_mem_of_descend (hclear _ List.mem_cons_self)
    (fun name hname => hclear name (List.mem_cons_of_mem _ hname)) hdown

/-- a path that goes on from the name of the start is looked up from there -/
theorem find_name_append (f : Forest) {m : NodeId} (path : String)
    (hm : Path.separator ∉ (f.node m).name.toList) :
    f.find m ((f.node m).name ++ "/" ++ path) = f.descend m (Path.segments path) := by
  rw [find, Path.segments_append, Path.segments_of_not_mem hm]
  exact if_pos rfl

/-- the first path is followed to its end before the second one is begun -/
theorem find_append (f : Forest) (n : NodeId) (p q : String) :
    f.find n (p ++ "/" ++ q) = (f.find n p).bind fun m => f.descend m (Path.segments q) := by
  rw [find, find, Path.segments_append]
  obtain ⟨name, rest, hsegs⟩ := List.exists_cons_of_ne_nil (Path.segments_ne_nil p)
  rw [hsegs, List.cons_append]
  show (if name = _ then _ else _ : Option NodeId) = (if name = _ then _ else _ : Option _).bind _
  by_cases hname : name = (f.node n).name
  · rw [if_pos hname, if_pos hname]
    exact f.descend_append n rest (Path.segments q)
  · rw [if_neg hname, if_neg hname]
    rfl

/-- A lookup may stop at any separator of its path: it finds nothing if the part before finds
nothing, and otherwise what the part behind finds after the name of the node that was found, looked
up from that node.  Either part may be empty or hold further separators. -/
theorem find_resumed (f : Forest) (n : NodeId) (p q : String) :
    f.find n (p ++ "/" ++ q) =
      (f.find n p).bind fun m => f.find m ((f.node m).name ++ "/" ++ q) := by
  rw [find_append]
  cases hm : f.find n p with
  | none => rfl
  | some m => exact (f.find_name_append q (separator_not_mem_of_find hm)).symm

end Forest
end Arbor
