import Mathlib.Data.List.Forall2

/-!
# Texts one after the other

A text that is put together from parts can be taken apart again, if each part shows where it ends.

* `StartsWith`                 how a text goes on;
* `append_inj_of_stop`         a run of elements of a kind ends where another kind begins;
* `forall₂_of_flatMap_append`  a row of texts that each open with a mark.
-/

namespace Arbor

section
variable {α β γ : Type}

/-- nothing, or something that starts with an element that passes -/
def StartsWith (p : β → Prop) (xs : List β) : Prop := ∀ x ∈ xs.head?, p x

theorem startsWith_nil (p : β → Prop) : StartsWith p [] := fun x hx => by cases hx

theorem startsWith_cons {p : β → Prop} {x : β} (hx : p x) (xs : List β) :
    StartsWith p (x :: xs) := by
  intro y hy
  cases hy
  exact hx

theorem StartsWith.imp {p q : β → Prop} {xs : List β} (h : StartsWith p xs)
    (hpq : ∀ x, p x → q x) : StartsWith q xs := fun x hx => hpq x (h x hx)

/-- a run of elements of a kind ends where the first one of another kind stands -/
theorem append_inj_of_stop {p : β → Prop} {xs ys r s : List β} (hx : ∀ x ∈ xs, p x)
    (hy : ∀ y ∈ ys, p y) (hr : StartsWith (fun x => ¬ p x) r) (hs : StartsWith (fun x => ¬ p x) s)
    (h : xs ++ r = ys ++ s) : xs = ys ∧ r = s := by
  induction xs generalizing ys with
  | nil =>
    cases ys with
    | nil => exact ⟨rfl, h⟩
    | cons y ys =>
      rw [List.nil_append] at h
      rw [h] at hr
      exact absurd (hy y List.mem_cons_self) (hr y rfl)
  | cons x xs ih =>
    cases ys with
    | nil =>
      rw [List.nil_append] at h
      rw [← h] at hs
      exact absurd (hx x List.mem_cons_self) (hs x rfl)
    | cons y ys =>
      obtain ⟨rfl, htail⟩ := List.cons.inj h
      obtain ⟨rfl, hrest⟩ := ih (fun z hz => hx z (List.mem_cons_of_mem x hz))
        (fun z hz => hy z (List.mem_cons_of_mem x hz)) htail
      exact ⟨rfl, hrest⟩

/-- what stands before the first `x` -/
theorem append_inj_of_not_mem {x : β} {xs ys r s : List β} (hx : ∀ y ∈ xs, y ≠ x)
    (hy : ∀ y ∈ ys, y ≠ x) (h : xs ++ x :: r = ys ++ x :: s) : xs = ys ∧ r = s := by
  have hstop : ∀ t : List β, StartsWith (fun y => ¬ y ≠ x) (x :: t) :=
    fun t => startsWith_cons (p := fun y => ¬ y ≠ x) (not_not_intro rfl) t
  obtain ⟨hfront, hback⟩ := append_inj_of_stop hx hy (hstop r) (hstop s) h
  exact ⟨hfront, (List.cons.inj hback).2⟩

/-- Two rows of texts that are the same.  Each text opens with a mark that nothing after the row
starts with, and what comes of two texts that go on alike is known. -/
theorem forall₂_of_flatMap_append {f : α → List β} {g : γ → List β} {R : α → γ → Prop}
    (opens ends : β → Prop) (hapart : ∀ x, opens x → ¬ ends x) {as : List α} {bs : List γ}
    (hf : ∀ a ∈ as, ∃ x xs, f a = x :: xs ∧ opens x)
    (hg : ∀ b ∈ bs, ∃ x xs, g b = x :: xs ∧ opens x)
    (hread : ∀ a ∈ as, ∀ b ∈ bs, ∀ r s, StartsWith (fun x => opens x ∨ ends x) r →
      StartsWith (fun x => opens x ∨ ends x) s → f a ++ r = g b ++ s → R a b ∧ r = s)
    {r s : List β} (hr : StartsWith ends r) (hs : StartsWith ends s)
    (h : as.flatMap f ++ r = bs.flatMap g ++ s) : List.Forall₂ R as bs ∧ r = s := by
  have hstart : ∀ {δ : Type} {k : δ → List β} {cs : List δ} {t : List β},
      (∀ c ∈ cs, ∃ x xs, k c = x :: xs ∧ opens x) → StartsWith ends t →
      StartsWith (fun x => opens x ∨ ends x) (cs.flatMap k ++ t) := by
    intro δ k cs t hk ht
    cases cs with
    | nil => exact ht.imp fun x => Or.inr
    | cons c cs =>
      obtain ⟨x, xs, hc, hx⟩ := hk c List.mem_cons_self
      rw [List.flatMap_cons, hc]
      exact startsWith_cons (p := fun x => opens x ∨ ends x) (Or.inl hx) _
  induction as generalizing bs with
  | nil =>
    cases bs with
    | nil => exact ⟨.nil, h⟩
    | cons b bs =>
      obtain ⟨x, xs, hb, hx⟩ := hg b List.mem_cons_self
      rw [List.flatMap_nil, List.nil_append, List.flatMap_cons, hb] at h
      rw [h] at hr
      exact absurd (hr x rfl) (hapart x hx)
  | cons a as ih =>
    cases bs with
    | nil =>
      obtain ⟨x, xs, ha, hx⟩ := hf a List.mem_cons_self
      rw [List.flatMap_nil, List.nil_append, List.flatMap_cons, ha] at h
      rw [← h] at hs
      exact absurd (hs x rfl) (hapart x hx)
    | cons b bs =>
      have hf' : ∀ c ∈ as, ∃ x xs, f c = x :: xs ∧ opens x :=
        fun c hc => hf c (List.mem_cons_of_mem a hc)
      have hg' : ∀ c ∈ bs, ∃ x xs, g c = x :: xs ∧ opens x :=
        fun c hc => hg c (List.mem_cons_of_mem b hc)
      rw [List.flatMap_cons, List.flatMap_cons, List.append_assoc, List.append_assoc] at h
      obtain ⟨hab, hrest⟩ := hread a List.mem_cons_self b List.mem_cons_self _ _
        (hstart hf' hr) (hstart hg' hs) h
      obtain ⟨hall, hend⟩ := ih hf' hg' (fun c hc d hd => hread c (List.mem_cons_of_mem a hc) d
        (List.mem_cons_of_mem b hd)) hrest
      exact ⟨.cons hab hall, hend⟩

end

end Arbor
