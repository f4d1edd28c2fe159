import Arbor.Forest.Dump
import Mathlib.Data.List.Infix

/-!
# Escape sequences in a text

A colour is begun and ended by escape sequences.  Each of them starts with the escape character and
holds no other, so two of them never overlap, and reading a text from its start finds all of them.

* `Escape`                      the sequences;
* `Escape.pieces`               a text as its sequences and the characters between them;
* `Escape.pieces_append_escape`  a sequence is found wherever it stands;
* `Escape.stripped`, `Escape.found`  the text without its sequences, and these in order;
* `Shows`                       a text that reads as another with some parts of it in colour.
-/

namespace Arbor

/-- the sequences that begin a colour, and the one that ends it -/
inductive Escape where
  | opening (c : Colour)
  | reset
  deriving DecidableEq

/-- without the character that sequences start with -/
def Unescaped (text : String) : Prop := '\x1b' ∉ text.toList

instance (text : String) : Decidable (Unescaped text) :=
  inferInstanceAs (Decidable ('\x1b' ∉ text.toList))

theorem Unescaped.append {x y : String} (hx : Unescaped x) (hy : Unescaped y) : Unescaped (x ++ y) := by
  rw [Unescaped, String.toList_append, List.mem_append, not_or]
  exact ⟨hx, hy⟩

namespace Escape

def text : Escape → String
  | .opening c => c.code
  | .reset => Colour.reset

def chars (e : Escape) : List Char := e.text.toList

def all : List Escape := [.opening .bold, .opening .yellow, .opening .green, .reset]

theorem exists_chars_eq (e : Escape) : ∃ tail, e.chars = '\x1b' :: tail ∧ '\x1b' ∉ tail := by
  rcases e with (_ | _ | _) | _ <;> exact ⟨_, rfl, by decide⟩

/-! ## the start of a text -/

/-- the sequence that a text starts with -/
def first? (text : List Char) : Option Escape := all.find? fun e => e.chars.isPrefixOf text

/-- no sequence is the start of another -/
theorem first?_append (e : Escape) (rest : List Char) : first? (e.chars ++ rest) = some e := by
  rcases e with (_ | _ | _) | _ <;> rfl

theorem prefix_of_first? {text : List Char} {e : Escape} (h : first? text = some e) :
    e.chars <+: text := List.isPrefixOf_iff_prefix.mp (List.find?_some h :)

theorem first?_cons_of_ne {c : Char} (hc : c ≠ '\x1b') (rest : List Char) :
    first? (c :: rest) = none := by
  refine List.find?_eq_none.mpr fun e _ hprefix => hc ?_
  obtain ⟨tail, htail, -⟩ := e.exists_chars_eq
  obtain ⟨_, heq⟩ := List.isPrefixOf_iff_prefix.mp hprefix
  rw [htail] at heq
  exact (List.cons.inj heq).1.symm

/-- A sequence does not reach into the next one: that starts with the escape character, which no
sequence holds further on. -/
theorem prefix_append_iff {c : Char} {xs : List Char} (e d : Escape) (rest : List Char) :
    e.chars <+: c :: xs ++ (d.chars ++ rest) ↔ e.chars <+: c :: xs := by
  obtain ⟨tail, htail, hout⟩ := e.exists_chars_eq
  obtain ⟨_, hopen, -⟩ := d.exists_chars_eq
  rw [htail, hopen, List.cons_append, List.cons_append, List.cons_prefix_cons, List.cons_prefix_cons]
  refine and_congr_right fun _ => ⟨?_, fun h => h.trans (List.prefix_append xs _)⟩
  rintro ⟨after, hafter⟩
  rcases List.append_eq_append_iff.mp hafter with ⟨ys, rfl, -⟩ | ⟨ys, rfl, hys⟩
  · exact List.prefix_append tail ys
  · cases ys with
    | nil => rw [List.append_nil]
    | cons y ys =>
      obtain ⟨rfl, -⟩ := List.cons.inj hys
      exact absurd (List.mem_append_right xs List.mem_cons_self) hout

theorem first?_append_escape (c : Char) (xs : List Char) (d : Escape) (rest : List Char) :
    first? (c :: xs ++ (d.chars ++ rest)) = first? (c :: xs) := by
  refine congrArg (all.find? ·) (funext fun e => ?_)
  rw [Bool.eq_iff_iff, List.isPrefixOf_iff_prefix, List.isPrefixOf_iff_prefix]
  exact prefix_append_iff e d rest

/-! ## whole texts -/

/-- a character of the text itself, or a sequence -/
inductive Piece where
  | char (c : Char)
  | escape (e : Escape)
  deriving DecidableEq

namespace Piece

def char? : Piece → Option Char
  | .char c => some c
  | .escape _ => none

def escape? : Piece → Option Escape
  | .char _ => none
  | .escape e => some e

theorem filterMap_char?_cons (e : Escape) (ps : List Piece) :
    (escape e :: ps).filterMap char? = ps.filterMap char? := rfl

theorem filterMap_escape?_cons (e : Escape) (ps : List Piece) :
    (escape e :: ps).filterMap escape? = e :: ps.filterMap escape? := rfl

theorem filterMap_char?_map (text : List Char) : (text.map char).filterMap char? = text := by
  rw [List.filterMap_map]
  exact List.filterMap_some

theorem filterMap_escape?_map (text : List Char) : (text.map char).filterMap escape? = [] := by
  rw [List.filterMap_map]
  exact List.filterMap_eq_nil_iff.mpr fun _ _ => rfl

end Piece

/-- the pieces of a text of which so many characters belong to the sequence before them -/
def piecesAfter : Nat → List Char → List Piece
  | _, [] => []
  | k + 1, _ :: rest => piecesAfter k rest
  | 0, c :: rest =>
    match first? (c :: rest) with
    | some e => .escape e :: piecesAfter (e.chars.length - 1) rest
    | none => .char c :: piecesAfter 0 rest

def pieces (text : List Char) : List Piece := piecesAfter 0 text

theorem piecesAfter_length_append (xs rest : List Char) :
    piecesAfter xs.length (xs ++ rest) = pieces rest := by
  induction xs with
  | nil => rfl
  | cons _ xs ih => exact ih

theorem pieces_escape_append (e : Escape) (rest : List Char) :
    pieces (e.chars ++ rest) = .escape e :: pieces rest := by
  have hfirst := e.first?_append rest
  obtain ⟨tail, htail, -⟩ := e.exists_chars_eq
  have hlength : e.chars.length - 1 = tail.length := by rw [htail]; rfl
  rw [htail, List.cons_append] at hfirst ⊢
  rw [pieces, piecesAfter, hfirst, ← piecesAfter_length_append tail rest, ← hlength]

theorem piecesAfter_append_escape {k : Nat} {xs : List Char} (hk : k ≤ xs.length) (e : Escape)
    (rest : List Char) :
    piecesAfter k (xs ++ (e.chars ++ rest)) = piecesAfter k xs ++ .escape e :: pieces rest := by
  induction xs generalizing k with
  | nil =>
    obtain rfl := Nat.le_zero.mp hk
    exact e.pieces_escape_append rest
  | cons c xs ih =>
    cases k with
    | succ k => exact ih (Nat.le_of_succ_le_succ hk)
    | zero =>
      have hfirst := first?_append_escape c xs e rest
      rw [List.cons_append] at hfirst ⊢
      rw [piecesAfter, piecesAfter, hfirst]
      cases hd : first? (c :: xs) with
      | none => exact congrArg (Piece.char c :: ·) (ih (Nat.zero_le _))
      | some d =>
        -- the sequence found is whole, so it ends before the other one starts
        have hlength := (prefix_of_first? hd).length_le
        rw [List.length_cons] at hlength
        exact congrArg (Piece.escape d :: ·) (ih (by omega))

/-- a sequence is found wherever it stands -/
theorem pieces_append_escape (xs : List Char) (e : Escape) (rest : List Char) :
    pieces (xs ++ (e.chars ++ rest)) = pieces xs ++ .escape e :: pieces rest :=
  piecesAfter_append_escape (Nat.zero_le _) e rest

theorem pieces_append_of_not_mem {xs : List Char} (h : '\x1b' ∉ xs) (rest : List Char) :
    pieces (xs ++ rest) = xs.map .char ++ pieces rest := by
  induction xs with
  | nil => rfl
  | cons c xs ih =>
    rw [List.mem_cons, not_or] at h
    rw [List.cons_append, pieces, piecesAfter, first?_cons_of_ne (Ne.symm h.1)]
    exact congrArg (Piece.char c :: ·) (ih h.2)

/-- the text without its sequences -/
def stripped (text : String) : String :=
  String.ofList ((pieces text.toList).filterMap Piece.char?)

/-- the sequences of the text in order -/
def found (text : String) : List Escape := (pieces text.toList).filterMap Piece.escape?

/-- a sequence that begins each colour, and the one that ends it -/
def alternation (colours : List Colour) : List Escape :=
  colours.flatMap fun c => [.opening c, .reset]

theorem alternation_append (cs ds : List Colour) :
    alternation (cs ++ ds) = alternation cs ++ alternation ds := List.flatMap_append

end Escape

/-! ## coloured texts -/

/-- The first text reads as the second one, which has no sequences, with these colours on parts of it
one after the other, whatever text comes next. -/
structure Shows (colours : List Colour) (x y : String) : Prop where
  unescaped : Unescaped y
  stripped : ∀ rest, (Escape.pieces (x.toList ++ rest)).filterMap Escape.Piece.char? =
    y.toList ++ (Escape.pieces rest).filterMap Escape.Piece.char?
  found : ∀ rest, (Escape.pieces (x.toList ++ rest)).filterMap Escape.Piece.escape? =
    Escape.alternation colours ++ (Escape.pieces rest).filterMap Escape.Piece.escape?

namespace Shows

variable {cs ds : List Colour} {x y x' y' : String}

theorem stripped_eq (h : Shows cs x y) : Escape.stripped x = y := by
  have hall := h.stripped []
  rw [List.append_nil] at hall
  rw [Escape.stripped, hall]
  exact (congrArg String.ofList (List.append_nil _)).trans String.ofList_toList

theorem found_eq (h : Shows cs x y) : Escape.found x = Escape.alternation cs := by
  have hall := h.found []
  rw [List.append_nil] at hall
  exact hall.trans (List.append_nil _)

theorem plain {t : String} (h : Unescaped t) : Shows [] t t where
  unescaped := h
  stripped rest := by
    rw [Escape.pieces_append_of_not_mem h, List.filterMap_append, Escape.Piece.filterMap_char?_map]
  found rest := by
    rw [Escape.pieces_append_of_not_mem h, List.filterMap_append, Escape.Piece.filterMap_escape?_map]
    rfl

theorem append (h : Shows cs x y) (h' : Shows ds x' y') : Shows (cs ++ ds) (x ++ x') (y ++ y') where
  unescaped := h.unescaped.append h'.unescaped
  stripped rest := by
    rw [String.toList_append, String.toList_append, List.append_assoc, h.stripped, h'.stripped,
      List.append_assoc]
  found rest := by
    rw [String.toList_append, List.append_assoc, h.found, h'.found, Escape.alternation_append,
      List.append_assoc]

/-- rows of texts, each of which shows another -/
theorem join {α : Type} {as : List α} {g h : α → String} {k : α → List Colour}
    (hall : ∀ a ∈ as, Shows (k a) (g a) (h a)) :
    Shows (as.flatMap k) (String.join (as.map g)) (String.join (as.map h)) := by
  induction as with
  | nil => exact plain (t := "") (by decide)
  | cons a as ih =>
    rw [List.map_cons, List.map_cons, String.join_cons, String.join_cons, List.flatMap_cons]
    exact (hall a List.mem_cons_self).append (ih fun b hb => hall b (List.mem_cons_of_mem a hb))

theorem paint (c : Colour) {t : String} (h : Unescaped t) :
    Shows [c] (c.paint true t) (c.paint false t) := by
  have hpieces : ∀ rest, Escape.pieces ((c.paint true t).toList ++ rest) =
      .escape (.opening c) :: (t.toList.map .char ++ .escape .reset :: Escape.pieces rest) := by
    intro rest
    have hchars : (c.paint true t).toList ++ rest = [] ++ ((Escape.opening c).chars ++
        (t.toList ++ (Escape.reset.chars ++ rest))) := by
      rw [Colour.paint, if_pos rfl, String.toList_append, String.toList_append, List.append_assoc,
        List.append_assoc]
      rfl
    have hinside : Escape.pieces t.toList = t.toList.map .char := by
      have hall := Escape.pieces_append_of_not_mem h []
      rw [List.append_nil] at hall
      exact hall.trans (List.append_nil _)
    rw [hchars, Escape.pieces_append_escape, Escape.pieces_append_escape, hinside]
    rfl
  have hplain : c.paint false t = t := if_neg Bool.false_ne_true
  rw [hplain]
  refine ⟨h, fun rest => ?_, fun rest => ?_⟩
  · rw [hpieces, Escape.Piece.filterMap_char?_cons, List.filterMap_append,
      Escape.Piece.filterMap_char?_cons, Escape.Piece.filterMap_char?_map]
  · rw [hpieces, Escape.Piece.filterMap_escape?_cons, List.filterMap_append,
      Escape.Piece.filterMap_escape?_cons, Escape.Piece.filterMap_escape?_map]
    rfl

end Shows
end Arbor
