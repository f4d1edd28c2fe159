import Arbor.Proofs.DumpTexts
import Arbor.Proofs.Escapes
import Arbor.Proofs.Sessions

/-!
# Dumps in colour

Colour is put on the name of a node, on each of its values and on its tags taken together, and on
nothing else.  So a dump in colour reads as the dump without, and every colour ends before the next
one begins, if no text of the subtree holds the character that escape sequences start with.

* `Node.Unescaped`, `Forest.UnescapedBelow`  such texts;
* `Node.colours`                the colours of a line in order;
* `Node.shows_line`             a line in colour;
* `Forest.shows_dump`           a dump in colour;
* `Reachable.colour_adds_sequences`  after every run.
-/

namespace Arbor

/-! ## texts without the escape character -/

namespace Unescaped

theorem join {texts : List String} (h : ∀ t ∈ texts, Unescaped t) :
    Unescaped (String.join texts) := by
  rw [Unescaped, String.toList_join, List.mem_flatMap]
  rintro ⟨t, ht, hc⟩
  exact h t ht hc

theorem intercalate_blank {texts : List String} (h : ∀ t ∈ texts, Unescaped t) :
    Unescaped (" ".intercalate texts) := by
  cases texts with
  | nil => decide
  | cons t ts =>
    rw [Unescaped, Node.toList_intercalate_blank, List.mem_append, List.mem_flatMap, not_or]
    refine ⟨h t List.mem_cons_self, ?_⟩
    rintro ⟨u, hu, hc⟩
    rcases List.mem_cons.mp hc with hblank | hc
    · exact absurd hblank (by decide)
    · exact h u (List.mem_cons_of_mem t hu) hc

theorem naturalText (n : Nat) : Unescaped (naturalText n) := fun hc =>
  absurd (isDigit_of_mem_naturalText hc) (by decide)

end Unescaped

/-- no text of the node holds the escape character -/
structure Node.Unescaped (node : Node) : Prop where
  name : Arbor.Unescaped node.name
  attributes : ∀ entry ∈ node.attributes, Arbor.Unescaped entry.1 ∧ Arbor.Unescaped entry.2
  tags : ∀ t ∈ node.tags, Arbor.Unescaped t

instance (node : Node) : Decidable node.Unescaped :=
  decidable_of_iff (Unescaped node.name ∧
      (∀ entry ∈ node.attributes, Unescaped entry.1 ∧ Unescaped entry.2) ∧
      ∀ t ∈ node.tags, Unescaped t)
    ⟨fun h => ⟨h.1, h.2.1, h.2.2⟩, fun h => ⟨h.name, h.attributes, h.tags⟩⟩

/-! ## lines -/

namespace Node

/-- one for the name, one for each value, and one for the tags if they leave a trace -/
def colours (node : Node) : List Colour :=
  .bold :: ((node.attributes.mergeSort keyLe).map fun _ => .yellow) ++
    if " ".intercalate node.tags = "" then [] else [.green]

namespace Unescaped

variable {node : Node} (h : node.Unescaped)
include h

theorem shows_attributeText {entry : String × String} (hentry : entry ∈ node.attributes) :
    Shows [.yellow] (attributeText true entry) (attributeText false entry) := by
  obtain ⟨hname, hvalue⟩ := h.attributes entry hentry
  have hopen : Arbor.Unescaped (" " ++ entry.1 ++ "=\x27") :=
    (Unescaped.append (by decide) hname).append (by decide)
  exact ((Shows.plain hopen).append (.paint .yellow hvalue)).append (.plain (by decide))

theorem shows_attributesText :
    Shows ((node.attributes.mergeSort keyLe).map fun _ => .yellow) (node.attributesText true)
      (node.attributesText false) := by
  have hrow : Shows ((node.attributes.mergeSort keyLe).flatMap fun _ => [.yellow])
      (node.attributesText true) (node.attributesText false) :=
    .join fun entry hentry => h.shows_attributeText ((List.mergeSort_perm _ _).mem_iff.mp hentry)
  rw [← List.map_eq_flatMap] at hrow
  exact hrow

theorem shows_tagsText :
    Shows (if " ".intercalate node.tags = "" then [] else [.green]) (node.tagsText true)
      (node.tagsText false) := by
  rw [tagsText, tagsText]
  by_cases htags : " ".intercalate node.tags = ""
  · simp only [if_pos htags]
    exact .plain (by decide)
  · simp only [if_neg htags]
    exact (Shows.plain (by decide)).append (.paint .green (.intercalate_blank h.tags))

theorem shows_line : Shows node.colours (node.line true) (node.line false) :=
  ((Shows.paint .bold h.name).append h.shows_attributesText).append h.shows_tagsText

end Unescaped
end Node

/-! ## dumps -/

namespace Forest

/-- no text of the node or of one below it holds the escape character -/
def UnescapedBelow (f : Forest) (n : NodeId) : Prop :=
  ∀ k m, f.ancestor? k m = some n → (f.node m).Unescaped

/-- the colours of a dump in order -/
def colours (f : Forest) (n : NodeId) : List Colour :=
  (f.walk n).flatMap fun v => (f.node v.node).colours

theorem shows_dumpLine {f : Forest} {v : Visit} (h : (f.node v.node).Unescaped) {indent : String}
    (hindent : Unescaped indent) :
    Shows (f.node v.node).colours (f.dumpLine true indent v) (f.dumpLine false indent v) := by
  have hfront : Unescaped (String.join (List.replicate (v.depth + 1) indent)) :=
    .join fun t ht => (List.mem_replicate.mp ht).2 ▸ hindent
  have hline := ((Shows.plain hfront).append h.shows_line).append (.plain (t := "\n") (by decide))
  rw [List.append_nil] at hline
  exact hline

theorem shows_dump {f : Forest} (hf : f.Linked) (hpos : 0 < f.size) {n : NodeId}
    (hclear : f.UnescapedBelow n) {indent : String} (hindent : Unescaped indent) :
    Shows (f.colours n) (f.dump true indent n) (f.dump false indent n) := by
  have hheader : Unescaped ("Tree (" ++ naturalText (f.count n) ++ " nodes)\n") :=
    (Unescaped.append (by decide) (.naturalText _)).append (by decide)
  have hlines : Shows (f.colours n) (String.join (f.dumpLines true indent n))
      (String.join (f.dumpLines false indent n)) :=
    .join fun v hv => shows_dumpLine (hclear _ _ ((hf.mem_walk_iff hpos).mp hv)) hindent
  exact (Shows.plain hheader).append hlines

/-- the name of the start comes first in a dump, and names are in colour -/
theorem colours_ne_nil {f : Forest} (hf : f.Linked) (hpos : 0 < f.size) (n : NodeId) :
    f.colours n ≠ [] := by
  rw [colours, hf.walk_eq hpos, List.flatMap_cons]
  exact List.cons_ne_nil _ _

end Forest

namespace Session

/-- After every run, if no text of the subtree of a living node holds the escape character and the
indent does not either, the dump of the node in colour is its dump without colour when the escape
sequences are taken out of it, which leaves no escape character behind.  These sequences are, for
one colour after the other, the one that begins it and the one that ends it, and there is a colour. -/
theorem Reachable.colour_adds_sequences {s : Session} (h : s.Reachable) {n : NodeId}
    (hn : s.Alive n) (hclear : s.forest.UnescapedBelow n) {indent : String}
    (hindent : Unescaped indent) :
    Escape.stripped (s.forest.dump true indent n) = s.forest.dump false indent n ∧
    Unescaped (s.forest.dump false indent n) ∧
    s.forest.colours n ≠ [] ∧
    Escape.found (s.forest.dump true indent n) =
      (s.forest.colours n).flatMap fun c => [.opening c, .reset] := by
  have hpos := h.pos_size_of_alive hn
  have hshows := Forest.shows_dump h.linked hpos hclear hindent
  exact ⟨hshows.stripped_eq, hshows.unescaped, Forest.colours_ne_nil h.linked hpos n,
    hshows.found_eq⟩

/-- a root whose texts look like parts of escape sequences, with a value that is empty -/
def signboard : Session :=
  (start.run [.create "[1m", .create "low\n[0m", .edit (.add 0 (.node 1)),
    .edit (.setAttribute 0 "[33m" (.text "")), .edit (.tag 1 ""), .edit (.tag 1 "[0m")]).2

theorem reachable_signboard : signboard.Reachable := ⟨_, rfl⟩

theorem colour_adds_sequences_signboard :
    (signboard.Reachable ∧ signboard.Alive 0 ∧ signboard.forest.UnescapedBelow 0 ∧
        Unescaped ".") ∧
      Escape.stripped (signboard.forest.dump true "." 0) =
        "Tree (2 nodes)\n.[1m [33m=\x27\x27\n..low\n[0m  [0m\n" ∧
      Escape.found (signboard.forest.dump true "." 0) =
        [.opening .bold, .reset, .opening .yellow, .reset, .opening .bold, .reset,
          .opening .green, .reset] := by
  have hlive : signboard.Alive 0 := .anchored (.inl (by decide +kernel))
  have hclear : signboard.forest.UnescapedBelow 0 := by
    intro k m hm
    have hall : ∀ m < signboard.forest.size, (signboard.forest.node m).Unescaped := by
      decide +kernel
    exact hall m (reachable_signboard.linked.lt_size_of_below
      (reachable_signboard.lt_size_of_alive hlive) hm)
  have hindent : Unescaped "." := by decide
  obtain ⟨hstripped, -, -, hfound⟩ :=
    Reachable.colour_adds_sequences reachable_signboard hlive hclear hindent
  have hcolours : signboard.forest.colours 0 = [.bold, .yellow, .bold, .green] := by decide +kernel
  refine ⟨⟨reachable_signboard, hlive, hclear, hindent⟩, ?_, ?_⟩
  · rw [hstripped]
    decide +kernel
  · rw [hfound, hcolours]
    rfl

end Session
end Arbor
