/-!
# Dictionaries in order of insertion

A dictionary is the list of its entries.  Keys are texts.

* `Dictionary.get?`   the value of a key;
* `Dictionary.put`    a known key keeps its place, a new one goes to the end;
* `Dictionary.erase`  removes the entry of a key.
-/

namespace Arbor

abbrev Dictionary (α : Type) := List (String × α)

namespace Dictionary

variable {α : Type}

def get? (entries : Dictionary α) (key : String) : Option α := List.lookup key entries

def put (key : String) (value : α) : Dictionary α → Dictionary α
  | [] => [(key, value)]
  | (k, v) :: rest => if k = key then (key, value) :: rest else (k, v) :: put key value rest

def erase (entries : Dictionary α) (key : String) : Dictionary α :=
  entries.filter fun entry => entry.1 ≠ key

/-! ## keys -/

def keys (entries : Dictionary α) : List String := entries.map Prod.fst

theorem keys_put_of_mem (key : String) (value : α) (entries : Dictionary α)
    (h : key ∈ entries.keys) : (put key value entries).keys = entries.keys := by
  induction entries with
  | nil => simp [keys] at h
  | cons entry rest ih =>
    rw [put]
    split
    · rename_i hk
      simp [keys, hk]
    · rename_i hk
      have hr : key ∈ Dictionary.keys rest := by
        rcases List.mem_cons.mp h with h | h
        · exact absurd h.symm hk
        · exact h
      exact congrArg (entry.1 :: ·) (ih hr)

theorem keys_put_of_not_mem (key : String) (value : α) (entries : Dictionary α)
    (h : key ∉ entries.keys) : (put key value entries).keys = entries.keys ++ [key] := by
  induction entries with
  | nil => rfl
  | cons entry rest ih =>
    rw [put]
    split
    · rename_i hk
      exact absurd (by simp [keys, hk]) h
    · have hr : key ∉ Dictionary.keys rest := fun hm => h (List.mem_cons_of_mem _ hm)
      exact congrArg (entry.1 :: ·) (ih hr)

theorem keys_erase (entries : Dictionary α) (key : String) :
    (entries.erase key).keys = entries.keys.filter (· ≠ key) := by
  simp only [keys, erase, List.filter_map]
  rfl

/-! ## values -/

@[simp] theorem get?_nil (key : String) : get? ([] : Dictionary α) key = none := rfl

theorem get?_cons (entry : String × α) (rest : Dictionary α) (key : String) :
    get? (entry :: rest) key = if key = entry.1 then some entry.2 else rest.get? key := by
  rw [get?, get?, List.lookup_cons]
  by_cases hk : key = entry.1
  · rw [if_pos hk, beq_iff_eq.mpr hk]
  · rw [if_neg hk, beq_eq_false_iff_ne.mpr hk]

theorem get?_put_self (key : String) (value : α) (entries : Dictionary α) :
    (put key value entries).get? key = some value := by
  induction entries with
  | nil => rw [put, get?_cons, if_pos rfl]
  | cons entry rest ih =>
    rw [put]
    split
    · rw [get?_cons, if_pos rfl]
    · rename_i hk
      rw [get?_cons, if_neg (Ne.symm hk)]
      exact ih

theorem get?_put_of_ne {key other : String} (h : other ≠ key) (value : α)
    (entries : Dictionary α) : (put key value entries).get? other = entries.get? other := by
  induction entries with
  | nil => rw [put, get?_cons, if_neg h]
  | cons entry rest ih =>
    rw [put]
    split
    · rename_i hk
      rw [get?_cons, get?_cons, if_neg h, if_neg (hk ▸ h)]
    · rw [get?_cons, get?_cons, ih]

theorem get?_erase_self (key : String) (entries : Dictionary α) :
    (entries.erase key).get? key = none := by
  refine List.lookup_eq_none_iff.mpr fun entry hentry => ?_
  have hne : entry.1 ≠ key := of_decide_eq_true (List.mem_filter.mp hentry).2
  exact bne_iff_ne.mpr (Ne.symm hne)

theorem get?_erase_of_ne {key other : String} (h : other ≠ key) (entries : Dictionary α) :
    (entries.erase key).get? other = entries.get? other := by
  induction entries with
  | nil => rfl
  | cons entry rest ih =>
    show get? (List.filter _ (entry :: rest)) other = get? (entry :: rest) other
    by_cases hk : entry.1 = key
    · rw [List.filter_cons_of_neg (by simpa using hk), get?_cons, if_neg (hk ▸ h)]
      exact ih
    · rw [List.filter_cons_of_pos (by simpa using hk), get?_cons, get?_cons]
      exact congrArg (if other = entry.1 then some entry.2 else ·) ih

/-- of two values put in one after the other the second one stays -/
theorem put_put (key : String) (first second : α) (entries : Dictionary α) :
    put key second (put key first entries) = put key second entries := by
  induction entries with
  | nil => simp [put]
  | cons entry rest ih =>
    by_cases hk : entry.1 = key
    · simp [put, hk]
    · simp [put, hk, ih]

end Dictionary
end Arbor
