import Arbor.Number.Digits

/-!
# Quoted text

A text between quotation marks, on one line and in printable characters.  Which characters are
printable is a parameter.

* `Quoted.mark`    the quotation mark: the double one only for a text that has a single one and no
                   double one;
* `Quoted.escape`  how a character is written between the marks;
* `Quoted.encode`  the text with its marks.
-/

namespace Arbor.Quoted

def mark (text : List Char) : Char :=
  if text.contains '\x27' && !text.contains '\x22' then '\x22' else '\x27'

/-- the code of a character in the shortest of the three hexadecimal forms -/
def code (c : Char) : List Char :=
  if c.toNat < 0x100 then '\x5c' :: 'x' :: paddedDigits 16 2 c.toNat
  else if c.toNat < 0x10000 then '\x5c' :: 'u' :: paddedDigits 16 4 c.toNat
  else '\x5c' :: 'U' :: paddedDigits 16 8 c.toNat

/-- a backslash stands before the mark in use and before a backslash -/
def escape (printable : Char → Bool) (mark c : Char) : List Char :=
  if c = mark ∨ c = '\x5c' then ['\x5c', c]
  else if c = '\n' then ['\x5c', 'n']
  else if c = '\r' then ['\x5c', 'r']
  else if c = '\t' then ['\x5c', 't']
  else if printable c then [c]
  else code c

/-- the text with each character escaped, between two marks -/
def encode (printable : Char → Bool) (text : List Char) : List Char :=
  let m := mark text
  m :: (text.flatMap (escape printable m) ++ [m])

end Arbor.Quoted
