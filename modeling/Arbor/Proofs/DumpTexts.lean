import Arbor.Proofs.TextRows
import Arbor.Proofs.Traversals
import Arbor.Forest.Dump

/-!
# Reading dumps back

Where names and tags are words, a dump without colour can be taken apart again: into its lines, each
line into its depth, its name and what is told of the node, and that into attributes and tags.

* `Word`, `Node.Plain`         names, tags and values that cannot be mistaken for anything else;
* `Line`                       what a line of a dump tells;
* `Line.eq_of_text_append`     it can be read off the line;
* `Forest.dump_eq_iff_outline_eq`  two dumps are the same exactly if their lines tell the same.
-/

namespace Arbor

/-! ## words -/

/-- a text that is not empty and does not hold any character that has a meaning in a dump -/
def Word (text : String) : Prop :=
  text ≠ "" ∧ ∀ c ∈ text.toList, c ≠ ' ' ∧ c ≠ '\n' ∧ c ≠ '\x27' ∧ c ≠ '='

-- by the list, not by all characters there are
instance (text : String) : Decidable (Word text) :=
  have := List.decidableBAll (fun c => c ≠ ' ' ∧ c ≠ '\n' ∧ c ≠ '\x27' ∧ c ≠ '=') text.toList
  inferInstanceAs (Decidable (text ≠ "" ∧ _))

/-- a value that stays on its line and ends where its quotation ends -/
def Quotable (value : String) : Prop := ∀ c ∈ value.toList, c ≠ '\n' ∧ c ≠ '\x27'

instance (value : String) : Decidable (Quotable value) :=
  List.decidableBAll (fun c => c ≠ '\n' ∧ c ≠ '\x27') value.toList

/-- a node that a dump shows without ambiguity -/
structure Node.Plain (node : Node) : Prop where
  name : Word node.name
  attributes : ∀ entry ∈ node.attributes, Word entry.1 ∧ Quotable entry.2
  tags : ∀ t ∈ node.tags, Word t

instance (node : Node) : Decidable node.Plain :=
  decidable_of_iff (Word node.name ∧ (∀ entry ∈ node.attributes, Word entry.1 ∧ Quotable entry.2) ∧
      ∀ t ∈ node.tags, Word t)
    ⟨fun h => ⟨h.1, h.2.1, h.2.2⟩, fun h => ⟨h.name, h.attributes, h.tags⟩⟩

/-! ## attributes and tags -/

/-- what stands after a blank on a line -/
inductive Item where
  | entry (name value : String)
  | tag (t : String)
  deriving DecidableEq

namespace Item

/-- the characters up to the first one that has a meaning, if the item is plain -/
def word : Item → String
  | .entry name _ => name
  | .tag t => t

/-- the quoted value -/
def quotation : Item → List Char
  | .entry _ value => '=' :: '\x27' :: (value.toList ++ ['\x27'])
  | .tag _ => []

def text (x : Item) : List Char := ' ' :: (x.word.toList ++ x.quotation)

def Plain : Item → Prop
  | .entry name value => Word name ∧ Quotable value
  | .tag t => Word t

theorem Plain.word {x : Item} (h : x.Plain) : Word x.word := by
  cases x with
  | entry name value => exact h.1
  | tag t => exact h

/-- an item can be read off what starts with it -/
theorem eq_of_text_append {x y : Item} (hx : x.Plain) (hy : y.Plain) {r s : List Char}
    (hr : StartsWith (· = ' ') r) (hs : StartsWith (· = ' ') s)
    (h : x.text ++ r = y.text ++ s) : x = y ∧ r = s := by
  have hword : ∀ {z : Item}, z.Plain → ∀ c ∈ z.word.toList, c ≠ ' ' ∧ c ≠ '=' :=
    fun hz c hc => ⟨(hz.word.2 c hc).1, (hz.word.2 c hc).2.2.2⟩
  have hstop : ∀ (z : Item) {t : List Char}, StartsWith (· = ' ') t →
      StartsWith (fun c => ¬ (c ≠ ' ' ∧ c ≠ '=')) (z.quotation ++ t) := by
    intro z t ht
    cases z with
    | entry name value =>
      exact startsWith_cons (p := fun c => ¬ (c ≠ ' ' ∧ c ≠ '=')) (by decide) _
    | tag _ =>
      intro c hc hboth
      exact hboth.1 (ht c hc)
  have htail : x.word.toList ++ (x.quotation ++ r) = y.word.toList ++ (y.quotation ++ s) := by
    simpa [text] using h
  obtain ⟨hwords, hrest⟩ := append_inj_of_stop (hword hx) (hword hy) (hstop x hr) (hstop y hs) htail
  replace hwords : x.word = y.word := String.toList_inj.mp hwords
  cases x with
  | entry name value =>
    cases y with
    | entry name' value' =>
      have hquoted : value.toList ++ '\x27' :: r = value'.toList ++ '\x27' :: s := by
        simpa [quotation] using hrest
      obtain ⟨hvalues, hend⟩ := append_inj_of_not_mem (fun c hc => (hx.2 c hc).2)
        (fun c hc => (hy.2 c hc).2) hquoted
      cases String.toList_inj.mp hvalues
      cases hwords
      exact ⟨rfl, hend⟩
    | tag t =>
      -- a tag is followed by a blank or by nothing
      replace hrest : '=' :: _ = s := hrest
      rw [← hrest] at hs
      exact absurd (hs '=' rfl) (by decide)
  | tag t =>
    cases y with
    | entry name' value' =>
      replace hrest : r = '=' :: _ := hrest
      rw [hrest] at hr
      exact absurd (hr '=' rfl) (by decide)
    | tag t' =>
      cases hwords
      exact ⟨rfl, hrest⟩

theorem Plain.newline_not_mem {x : Item} (h : x.Plain) : ∀ c ∈ x.text, c ≠ '\n' := by
  intro c hc
  have hmem : c = ' ' ∨ c ∈ x.word.toList ∨ c ∈ x.quotation := by
    simpa [text] using hc
  rcases hmem with rfl | hword | hquotation
  · decide
  · exact (h.word.2 c hword).2.1
  · cases x with
    | entry name value =>
      have hin : c = '=' ∨ c = '\x27' ∨ c ∈ value.toList ∨ c = '\x27' := by
        simpa [quotation] using hquotation
      rcases hin with rfl | rfl | hvalue | rfl
      · decide
      · decide
      · exact (h.2 c hvalue).1
      · decide
    | tag t => cases hquotation

end Item

namespace Node

/-- the attributes by name, then the tags in order -/
def items (node : Node) : List Item :=
  (node.attributes.mergeSort keyLe).map (fun entry => .entry entry.1 entry.2) ++
    node.tags.map .tag

theorem Plain.items {node : Node} (h : node.Plain) : ∀ x ∈ node.items, x.Plain := by
  intro x hx
  rcases List.mem_append.mp hx with hx | hx
  · obtain ⟨entry, hentry, rfl⟩ := List.mem_map.mp hx
    exact h.attributes entry ((List.mergeSort_perm _ _).mem_iff.mp hentry)
  · obtain ⟨t, ht, rfl⟩ := List.mem_map.mp hx
    exact h.tags t ht

theorem toList_intercalate_blank (t : String) (ts : List String) :
    (" ".intercalate (t :: ts)).toList = t.toList ++ ts.flatMap fun t => ' ' :: t.toList := by
  rw [String.toList_intercalate]
  induction ts generalizing t with
  | nil => simp
  | cons u us ih =>
    rw [List.map_cons, List.map_cons, List.intercalate_cons_cons, ← List.map_cons, ih]
    simp

theorem toList_tagsText {node : Node} (h : ∀ t ∈ node.tags, t ≠ "") :
    (node.tagsText false).toList = (node.tags.map Item.tag).flatMap Item.text := by
  rw [tagsText, List.flatMap_map]
  cases htags : node.tags with
  | nil => rfl
  | cons t ts =>
    have hne : " ".intercalate (t :: ts) ≠ "" := by
      intro hnil
      have hlist := toList_intercalate_blank t ts
      rw [hnil] at hlist
      have ht := (List.append_eq_nil_iff.mp hlist.symm).1
      exact h t (by rw [htags]; exact List.mem_cons_self) (String.toList_eq_nil_iff.mp ht)
    show (if _ then _ else _ : String).toList = _
    rw [if_neg hne, Colour.paint, if_neg Bool.false_ne_true, String.toList_append,
      toList_intercalate_blank]
    simp [Item.text, Item.word, Item.quotation]

/-- the line of a plain node is its name with its items -/
theorem toList_line {node : Node} (h : node.Plain) :
    (node.line false).toList = node.name.toList ++ node.items.flatMap Item.text := by
  have htags := toList_tagsText fun t ht => (h.tags t ht).1
  have hattributes : (node.attributesText false).toList =
      ((node.attributes.mergeSort keyLe).map (fun e => Item.entry e.1 e.2)).flatMap Item.text := by
    rw [attributesText, String.toList_join, List.flatMap_map, List.flatMap_map]
    refine List.flatMap_congr fun entry _ => ?_
    simp [attributeText, Colour.paint, Item.text, Item.word, Item.quotation]
  rw [line, Colour.paint, if_neg Bool.false_ne_true, String.toList_append, String.toList_append,
    htags, hattributes, items, List.flatMap_append, List.append_assoc]

end Node

/-! ## lines -/

/-- what a line of a dump tells -/
structure Line where
  depth : Nat
  name : String
  items : List Item
  deriving DecidableEq

namespace Line

def body (x : Line) : List Char := x.name.toList ++ x.items.flatMap Item.text

/-- the line itself, with an indent of so many blanks -/
def text (width : Nat) (x : Line) : List Char :=
  (List.replicate ((x.depth + 1) * width) ' ' ++ x.body) ++ ['\n']

structure Plain (x : Line) : Prop where
  name : Word x.name
  items : ∀ item ∈ x.items, item.Plain

/-- blanks stand between a name and its items and nowhere else -/
theorem name_items_of_body {x y : Line} (hx : x.Plain) (hy : y.Plain) (h : x.body = y.body) :
    x.name = y.name ∧ x.items = y.items := by
  have hblank : ∀ z : Line, StartsWith (fun c => ¬ c ≠ ' ') (z.items.flatMap Item.text) := by
    intro z
    cases z.items with
    | nil => exact startsWith_nil _
    | cons item rest => exact startsWith_cons (p := fun c => ¬ c ≠ ' ') (by decide) _
  obtain ⟨hnames, hitems⟩ := append_inj_of_stop (fun c hc => (hx.name.2 c hc).1)
    (fun c hc => (hy.name.2 c hc).1) (hblank x) (hblank y) h
  refine ⟨String.toList_inj.mp hnames, ?_⟩
  have hread : ∀ a ∈ x.items, ∀ b ∈ y.items, ∀ r s,
      StartsWith (fun c => c = ' ' ∨ False) r → StartsWith (fun c => c = ' ' ∨ False) s →
      a.text ++ r = b.text ++ s → a = b ∧ r = s := by
    intro a ha b hb r s hr hs
    simp only [or_false] at hr hs
    exact Item.eq_of_text_append (hx.items a ha) (hy.items b hb) hr hs
  have hrow := forall₂_of_flatMap_append (· = ' ') (fun _ => False) (fun _ _ => id)
    (fun a _ => ⟨' ', _, rfl, rfl⟩) (fun b _ => ⟨' ', _, rfl, rfl⟩) hread
    (startsWith_nil _) (startsWith_nil _) (congrArg (· ++ []) hitems)
  have heq := hrow.1
  rwa [List.forall₂_eq_eq_eq] at heq

theorem Plain.newline_not_mem {x : Line} (h : x.Plain) : ∀ c ∈ x.body, c ≠ '\n' := by
  intro c hc
  rcases List.mem_append.mp hc with hname | hitems
  · exact (h.name.2 c hname).2.1
  · obtain ⟨item, hitem, hc⟩ := List.mem_flatMap.mp hitems
    exact (h.items item hitem).newline_not_mem c hc

/-- a line can be read off what starts with it -/
theorem eq_of_text_append {width : Nat} (hw : 0 < width) {x y : Line} (hx : x.Plain)
    (hy : y.Plain) {r s : List Char} (h : x.text width ++ r = y.text width ++ s) :
    x = y ∧ r = s := by
  have hline : ∀ {z : Line}, z.Plain →
      ∀ c ∈ List.replicate ((z.depth + 1) * width) ' ' ++ z.body, c ≠ '\n' := by
    intro z hz c hc
    rcases List.mem_append.mp hc with hblank | hbody
    · rw [(List.mem_replicate.mp hblank).2]
      decide
    · exact hz.newline_not_mem c hbody
  have hname : ∀ {z : Line}, z.Plain → StartsWith (fun c => ¬ c = ' ') z.body := by
    intro z hz
    unfold body
    cases hchars : z.name.toList with
    | nil => exact absurd (String.toList_eq_nil_iff.mp hchars) hz.name.1
    | cons c rest =>
      have hc : c ∈ z.name.toList := by rw [hchars]; exact List.mem_cons_self
      exact startsWith_cons (p := fun c => ¬ c = ' ') (hz.name.2 c hc).1 _
  rw [text, text, List.append_assoc _ ['\n'] r, List.append_assoc _ ['\n'] s] at h
  obtain ⟨hlines, hrest⟩ := append_inj_of_not_mem (hline hx) (hline hy) h
  obtain ⟨hblanks, hbody⟩ := append_inj_of_stop (p := (· = ' '))
    (fun c hc => (List.mem_replicate.mp hc).2) (fun c hc => (List.mem_replicate.mp hc).2)
    (hname hx) (hname hy) hlines
  obtain ⟨hnames, hitems⟩ := name_items_of_body hx hy hbody
  have hdepth : x.depth = y.depth := by
    have hlengths := congrArg List.length hblanks
    rw [List.length_replicate, List.length_replicate] at hlengths
    exact Nat.succ.inj (Nat.eq_of_mul_eq_mul_right hw hlengths)
  refine ⟨?_, hrest⟩
  obtain ⟨d, name, items⟩ := x
  obtain ⟨d', name', items'⟩ := y
  cases hdepth
  cases hnames
  cases hitems
  rfl

end Line

/-! ## dumps -/

namespace Forest

/-- what the line of a visit tells -/
def lineAt (f : Forest) (v : Visit) : Line := ⟨v.depth, (f.node v.node).name, (f.node v.node).items⟩

/-- what the lines from a node down tell, when the node stands at the given depth -/
def outline (f : Forest) (d : Nat) (n : NodeId) : List Line :=
  (f.preorder (f.size + 1) d n).map f.lineAt

/-- the node and all that is below it are shown without ambiguity -/
def PlainBelow (f : Forest) (n : NodeId) : Prop :=
  ∀ k m, f.ancestor? k m = some n → (f.node m).Plain

theorem toList_dumpLine {f : Forest} {v : Visit} (h : (f.node v.node).Plain) {indent : String}
    (hindent : ∀ c ∈ indent.toList, c = ' ') :
    (f.dumpLine false indent v).toList = (f.lineAt v).text indent.toList.length := by
  have hblanks : (String.join (List.replicate (v.depth + 1) indent)).toList =
      List.replicate ((v.depth + 1) * indent.toList.length) ' ' := by
    rw [String.toList_join, List.eq_replicate_iff]
    refine ⟨by simp [List.length_flatMap], fun c hc => ?_⟩
    obtain ⟨text, htext, hc⟩ := List.mem_flatMap.mp hc
    rw [(List.mem_replicate.mp htext).2] at hc
    exact hindent c hc
  rw [dumpLine, String.toList_append, String.toList_append, hblanks, Node.toList_line h]
  rfl

section
variable {f : Forest} (hf : f.Linked) {n : NodeId} (hpos : 0 < f.size)
include hf hpos

theorem map_lineAt_walk : (f.walk n).map f.lineAt = f.outline 0 n := by
  rw [hf.walk_eq_preorder hpos]
  rfl

theorem count_eq_length_outline : f.count n = (f.outline 0 n).length := by
  rw [hf.count_eq_length_walk hpos, ← map_lineAt_walk hf hpos, List.length_map]

/-- a dump is its header with the lines of the outline -/
theorem toList_dump (hplain : f.PlainBelow n) {indent : String}
    (hindent : ∀ c ∈ indent.toList, c = ' ') :
    (f.dump false indent n).toList =
      ("Tree (" ++ naturalText (f.count n) ++ " nodes)").toList ++
        '\n' :: (f.outline 0 n).flatMap (Line.text indent.toList.length) := by
  have hlines : (String.join (f.dumpLines false indent n)).toList =
      (f.outline 0 n).flatMap (Line.text indent.toList.length) := by
    rw [← map_lineAt_walk hf hpos, dumpLines, String.toList_join, List.flatMap_map,
      List.flatMap_map]
    refine List.flatMap_congr fun v hv => ?_
    exact toList_dumpLine (hplain _ _ ((hf.mem_walk_iff hpos).mp hv)) hindent
  rw [dump, String.toList_append, hlines]
  simp

theorem plain_of_mem_outline (hplain : f.PlainBelow n) :
    ∀ x ∈ f.outline 0 n, x.Plain := by
  intro x hx
  rw [← map_lineAt_walk hf hpos] at hx
  obtain ⟨v, hv, rfl⟩ := List.mem_map.mp hx
  have hnode := hplain _ _ ((hf.mem_walk_iff hpos).mp hv)
  exact ⟨hnode.name, hnode.items⟩

end

theorem newline_not_mem_header (k : Nat) :
    ∀ c ∈ ("Tree (" ++ naturalText k ++ " nodes)").toList, c ≠ '\n' := by
  intro c hc
  rw [String.toList_append, String.toList_append, List.mem_append, List.mem_append] at hc
  rcases hc with (hc | hc) | hc
  · rintro rfl
    exact absurd hc (by decide)
  · rintro rfl
    cases isDigit_of_mem_naturalText hc
  · rintro rfl
    exact absurd hc (by decide)

/-- Two dumps of plain nodes are the same exactly if their lines tell the same. -/
theorem dump_eq_iff_outline_eq {f g : Forest} (hf : f.Linked) (hg : g.Linked) {n m : NodeId}
    (hfpos : 0 < f.size) (hgpos : 0 < g.size) (hfplain : f.PlainBelow n) (hgplain : g.PlainBelow m)
    {indent : String} (hne : indent ≠ "") (hindent : ∀ c ∈ indent.toList, c = ' ') :
    f.dump false indent n = g.dump false indent m ↔ f.outline 0 n = g.outline 0 m := by
  have hwidth : 0 < indent.toList.length :=
    List.length_pos_iff.mpr fun hnil => hne (String.toList_eq_nil_iff.mp hnil)
  rw [← String.toList_inj, toList_dump hf hfpos hfplain hindent,
    toList_dump hg hgpos hgplain hindent]
  constructor
  · intro h
    obtain ⟨_, hlines⟩ :=
      append_inj_of_not_mem (newline_not_mem_header _) (newline_not_mem_header _) h
    have hopen : ∀ x : Line, ∃ c rest, x.text indent.toList.length = c :: rest ∧ True := by
      intro x
      have htext : x.text indent.toList.length ≠ [] := List.append_ne_nil_of_right_ne_nil _ (by simp)
      obtain ⟨c, rest, hcons⟩ := List.exists_cons_of_ne_nil htext
      exact ⟨c, rest, hcons, trivial⟩
    have hrow := forall₂_of_flatMap_append (fun _ => True) (fun _ => False) (fun _ _ => id)
      (fun x _ => hopen x) (fun y _ => hopen y)
      (fun x hx y hy r s _ _ hxy => Line.eq_of_text_append hwidth
        (plain_of_mem_outline hf hfpos hfplain x hx) (plain_of_mem_outline hg hgpos hgplain y hy) hxy)
      (startsWith_nil _) (startsWith_nil _) (congrArg (· ++ []) hlines)
    have heq := hrow.1
    rwa [List.forall₂_eq_eq_eq] at heq
  · intro h
    rw [count_eq_length_outline hf hfpos, count_eq_length_outline hg hgpos, h]

end Forest
end Arbor
