import Arbor.Forest.Attachment

/-!
# Planting several nodes

* `Forest.sprout`         plants a node as the last branch of another;
* `Forest.plantChain`     plants nodes of which each but the first is the branch of the one before;
* `Forest.plantBranches`  plants nodes as the last branches of a node;
* `Forest.plantBranches_eq_foldl_sprout`  which is to let them sprout one after the other.
-/

namespace Arbor
namespace Forest

/-- a new node as the last branch of `p` -/
def sprout (f : Forest) (p : NodeId) (name : String) : Forest :=
  let n := f.size
  (f.plant name).attach p n

/-! ## chains -/

/-- a new node below the newest one -/
def lengthen (f : Forest) (name : String) : Forest :=
  let newest := f.size - 1
  f.sprout newest name

def plantChain (f : Forest) : List String → Forest
  | [] => f
  | name :: rest => rest.foldl lengthen (f.plant name)

/-! ## branches -/

/-- a new node that names its parent, which does not list it yet -/
def plantBelow (p : NodeId) (f : Forest) (name : String) : Forest :=
  ⟨f.nodes.push { Node.fresh name with parent := some p }⟩

/-- lists more branches at the end of those of a node -/
def appendBranches (f : Forest) (p : NodeId) (bs : List NodeId) : Forest :=
  f.update p fun node => { node with branches := node.branches ++ bs }

def plantBranches (f : Forest) (p : NodeId) (names : List String) : Forest :=
  let first := f.size
  (names.foldl (plantBelow p) f).appendBranches p (List.range' first names.length)

/-! ## one after the other -/

@[simp] theorem size_plantBelow (p : NodeId) (f : Forest) (name : String) :
    (plantBelow p f name).size = f.size + 1 := Array.size_push _

@[simp] theorem size_appendBranches (f : Forest) (p : NodeId) (bs : List NodeId) :
    (f.appendBranches p bs).size = f.size := size_update f p _

theorem plantBelow_eq (p : NodeId) (f : Forest) (name : String) :
    plantBelow p f name = (f.plant name).update f.size fun node => { node with parent := some p } := by
  simp only [plant, update, plantBelow, size]
  congr 1
  apply Array.ext
  · simp
  · intro i _ _
    simp only [Array.getElem_modify, Array.getElem_push]
    grind

theorem sprout_eq (f : Forest) (p : NodeId) (name : String) :
    f.sprout p name = (plantBelow p f name).appendBranches p [f.size] := by
  rw [plantBelow_eq]
  rfl

theorem size_sprout (f : Forest) (p : NodeId) (name : String) :
    (f.sprout p name).size = f.size + 1 := by
  rw [sprout_eq, size_appendBranches, size_plantBelow]

theorem appendBranches_nil (f : Forest) (p : NodeId) : f.appendBranches p [] = f := by
  cases f
  simp only [appendBranches, update]
  congr 1
  apply Array.ext
  · simp
  · intro i _ _
    simp only [Array.getElem_modify, List.append_nil, ite_self]

theorem appendBranches_appendBranches (f : Forest) (p : NodeId) (bs cs : List NodeId) :
    (f.appendBranches p bs).appendBranches p cs = f.appendBranches p (bs ++ cs) := by
  simp only [appendBranches, update]
  congr 1
  apply Array.ext
  · simp
  · intro i _ _
    simp only [Array.getElem_modify]
    grind

theorem plantBelow_appendBranches {f : Forest} {p : NodeId} (hp : p < f.size) (bs : List NodeId)
    (name : String) :
    plantBelow p (f.appendBranches p bs) name = (plantBelow p f name).appendBranches p bs := by
  have hp' : p < f.nodes.size := hp
  simp only [plantBelow, appendBranches, update]
  congr 1
  apply Array.ext
  · simp
  · intro i _ _
    simp only [Array.getElem_modify, Array.getElem_push, Array.size_modify]
    grind

theorem foldl_plantBelow_appendBranches {f : Forest} {p : NodeId} (hp : p < f.size)
    (bs : List NodeId) (names : List String) :
    names.foldl (plantBelow p) (f.appendBranches p bs) =
      (names.foldl (plantBelow p) f).appendBranches p bs := by
  induction names generalizing f with
  | nil => rfl
  | cons name rest ih =>
    rw [List.foldl_cons, List.foldl_cons, plantBelow_appendBranches hp]
    exact ih (by rw [size_plantBelow]; exact Nat.lt_succ_of_lt hp)

/-- planting several branches at once is planting one after the other -/
theorem plantBranches_eq_foldl_sprout {f : Forest} {p : NodeId} (hp : p < f.size)
    (names : List String) :
    f.plantBranches p names = names.foldl (fun f name => f.sprout p name) f := by
  induction names generalizing f with
  | nil => exact appendBranches_nil f p
  | cons name rest ih =>
    have hs : p < (plantBelow p f name).size := by
      rw [size_plantBelow]
      exact Nat.lt_succ_of_lt hp
    have hs' : p < (f.sprout p name).size := by
      rw [size_sprout]
      exact Nat.lt_succ_of_lt hp
    rw [List.foldl_cons, ← ih hs', plantBranches, plantBranches, size_sprout, sprout_eq,
      foldl_plantBelow_appendBranches hs, appendBranches_appendBranches]
    rfl

end Forest
end Arbor
