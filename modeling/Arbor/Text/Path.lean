/-!
# Paths

A path is a text of names with the separator between them.  A name that holds the separator reads
back as several segments.

* `Path.segments`  the texts between the separators of a path, one more than there are separators;
* `Path.join`      the path through some names.
-/

namespace Arbor.Path

def separator : Char := '/'

/-- the runs of characters between separators; the empty text is one empty run -/
def split : List Char → List (List Char)
  | [] => [[]]
  | c :: rest =>
    if c = separator then [] :: split rest
    else match split rest with
      | [] => [[c]]
      | run :: runs => (c :: run) :: runs

theorem split_ne_nil (text : List Char) : split text ≠ [] := by
  cases text with
  | nil => simp [split]
  | cons c rest =>
    rw [split]
    split
    · simp
    · split <;> simp

def segments (path : String) : List String := (split path.toList).map String.ofList

def join (names : List String) : String :=
  String.ofList ([separator].intercalate (names.map String.toList))

end Arbor.Path
