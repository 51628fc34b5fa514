import Automata.Text.Ranges

/-!
# Blanks, words and lines

The texts that describe automata and grammars are read line by line and word by word.

## What is here

* `isBlank` — the characters with the Unicode property White_Space.
* `trimmed`, `words` — text without outer blanks, and the pieces between blanks.
* `lines` — the lines of a text, which end at a line feed or at a carriage return followed by one.
* `cutAtArrow` — the parts of a line before and after its first arrow.
-/

set_option autoImplicit false

namespace Automata

namespace Text

/-- The ranges of code points with the property White_Space. -/
def blankRanges : List (Nat × Nat) :=
  [(0x09, 0x0D), (0x20, 0x20), (0x85, 0x85), (0xA0, 0xA0), (0x1680, 0x1680), (0x2000, 0x200A),
   (0x2028, 0x2029), (0x202F, 0x202F), (0x205F, 0x205F), (0x3000, 0x3000)]

/-- Whether a character is white space. -/
def isBlank (c : Char) : Bool := within blankRanges c

/-- The text without the blanks at its front. -/
def trimmedFront (l : List Char) : List Char := l.dropWhile isBlank

/-- The text without the blanks at its front and end. -/
def trimmed (l : List Char) : List Char :=
  (trimmedFront (trimmedFront l).reverse).reverse

/-- The pieces of a text between the characters that satisfy `p`; there is at least one. -/
def pieces (p : Char → Bool) : List Char → List (List Char)
  | [] => [[]]
  | c :: l =>
    if p c then [] :: pieces p l
    else
      match pieces p l with
      | [] => [[c]]
      | w :: ws => (c :: w) :: ws

/-- The words of a text: its longest pieces without blanks. -/
def words (l : List Char) : List (List Char) := (pieces isBlank l).filter fun w => !w.isEmpty

/-- A line without the carriage return that belongs to its end. -/
def withoutReturn (l : List Char) : List Char :=
  if l.getLast? = some '\r' then l.dropLast else l

/-- The lines of a text.  The last one needs no line end and counts only if it is not empty. -/
def lines (l : List Char) : List (List Char) :=
  let all := pieces (· == '\n') l
  let last := all.getLast?.getD []
  all.dropLast.map withoutReturn ++ if last.isEmpty then [] else [last]

/-- The parts of a text before and after its first `->`, if it has one. -/
def cutAtArrow : List Char → Option (List Char × List Char)
  | [] => none
  | '-' :: '>' :: after => some ([], after)
  | c :: l => (cutAtArrow l).map fun (before, after) => (c :: before, after)

end Text

end Automata
