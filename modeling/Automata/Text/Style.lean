import Automata.FinMap
import Automata.Text.Blank
import Automata.Text.ControlSequence

/-!
# Styles of text

A control sequence that ends in `m` sets the style of the text behind it: weight, slant, colours
and the like.  Where a text is cut into lines each line is given a style of its own: it begins
with what is in force from the lines before, and ends with the sequences that end what is in force
at its end.

## What is here

* `Style` — what is in force; `aspect?`, `endings` and `endedBy` say which numbers set and end it.
* `settings` — what the parameters of a sequence ask for.
* `Style.after` — the style behind a line.
* `Style.opening`, `Style.closing` — the sequences that begin and end a style.
* `styledLines` — the lines of a text, each with its own style.
-/

set_option autoImplicit false

namespace Automata

namespace Text

/-- What is in force at a place of a text. -/
structure Style where
  /-- The aspects that are set, each with the numbers that set it. -/
  aspects : FinMap Nat (List Nat) := ∅
  /-- Whether a sequence has ended all that was in force. -/
  cleared : Bool := false
  /-- Whether something of no known meaning has been asked for, and not been ended since. -/
  foreign : Bool := false

/-- The aspect of a style that a number sets.  An aspect is known by the least number that sets
it, the font by the number of the default font; all else is an aspect of one number. -/
def aspect? (n : Nat) : Option Nat :=
  if (1 ≤ n ∧ n ≤ 9) ∨ n = 20 ∨ n = 21 ∨ n = 26 then some n
  else if 11 ≤ n ∧ n ≤ 19 then some 10
  else if (30 ≤ n ∧ n ≤ 38) ∨ (90 ≤ n ∧ n ≤ 97) then some 30
  else if (40 ≤ n ∧ n ≤ 48) ∨ (100 ≤ n ∧ n ≤ 107) then some 40
  else if (51 ≤ n ∧ n ≤ 53) ∨ n = 58 ∨ (60 ≤ n ∧ n ≤ 64) ∨ n = 73 ∨ n = 74 then some n
  else none

/-- The number that is written to end an aspect. -/
def ending (aspect : Nat) : Nat :=
  if aspect = 1 ∨ aspect = 2 then 22
  else if aspect = 3 ∨ aspect = 20 then 23
  else if aspect = 4 ∨ aspect = 21 then 24
  else if aspect = 5 ∨ aspect = 6 then 25
  else if 7 ≤ aspect ∧ aspect ≤ 9 then aspect + 20
  else if aspect = 26 then 50
  else if aspect = 30 then 39
  else if aspect = 40 then 49
  else if aspect = 51 ∨ aspect = 52 then 54
  else if aspect = 53 then 55
  else if aspect = 58 then 59
  else if 60 ≤ aspect ∧ aspect ≤ 64 then 65
  else if aspect = 73 ∨ aspect = 74 then 75
  else 10

/-- The numbers that end aspects, in the order in which they are written.  The colour of a line
ends behind the marks at ideograms. -/
def endings : List Nat := [10, 22, 23, 24, 25, 27, 28, 29, 39, 49, 50, 54, 55, 65, 59, 75]

/-- Whether a number ends an aspect.  The black letter is left only with all else. -/
def endedBy (n aspect : Nat) : Bool := ending aspect == n && aspect != 20

/-! ## Reading styles -/

/-- The number that digits spell; what is no digit spells nothing. -/
def spelled? (l : List Char) : Option Nat :=
  if l.isEmpty || !l.all Char.isDigit then none
  else some (l.foldl (fun n c => 10 * n + (c.toNat - 48)) 0)

/-- A part of a colour: a number below 256, and zero for all that is none. -/
def shade (l : List Char) : Nat :=
  match spelled? l with
  | some n => if n < 256 then n else 0
  | none => 0

/-- A parameter that stands for itself: a number without needless zeros at its front. -/
def plain (l : List Char) : List Nat :=
  (spelled? l).toList.filter fun n => (toString n).toList == l

/-- The settings that parameters ask for.  Most are one number.  A colour that is given by its
place in a palette has three and a colour that is given by its parts has five; one that cannot be
read is skipped with the parameters that were read for it.  A parameter that is no number is a
setting without numbers. -/
def settings : List (List Char) → List (List Nat)
  | [] => []
  | p :: rest =>
    if p = ['3', '8'] ∨ p = ['4', '8'] ∨ p = ['5', '8'] then
      match rest with
      | ['5'] :: i :: rest => (plain p ++ [5, shade i]) :: settings rest
      | ['2'] :: r :: g :: b :: rest =>
        (plain p ++ [2, shade r, shade g, shade b]) :: settings rest
      | ['5'] :: _ | ['2'] :: _ | [] => []
      | _ :: rest => settings rest
    else plain p :: settings rest

/-- The characters around parameters that choose another meaning for a sequence. -/
def isMark (c : Char) : Bool := within [(0x20, 0x2F), (0x3C, 0x3F)] c

/-- The parameters of a control sequence that sets a style. -/
def styleParameters? (sequence : List Char) : Option (List (List Char)) :=
  match sequence with
  | '\x1b' :: '[' :: rest =>
    let parameters := rest.dropLast
    if rest.getLast? = some 'm' ∧ !parameters.any isMark then
      some (pieces (· == ';') parameters)
    else none
  | _ => none

namespace Style

/-- The style after a setting: zero ends all, the number of an aspect sets it, the number of an
ending ends the aspects that it is the end of, and all else has no known meaning. -/
def set (style : Style) (setting : List Nat) : Style :=
  match setting with
  | [] => { style with foreign := true }
  | n :: _ =>
    if n = 0 then { cleared := true }
    else
      match aspect? n with
      | some a => { style with aspects := style.aspects.insert a setting }
      | none =>
        if endings.contains n then
          { style with aspects := style.aspects.filterKeys fun a => !endedBy n a }
        else { style with foreign := true }

/-- The style after a piece of text.  A sequence that sets no style leaves it as it is. -/
def afterFragment (style : Style) : Fragment → Style
  | .shown _ => style
  | .sequence l => (((styleParameters? l).map settings).getD []).foldl set style

/-- The style after a line. -/
def after (style : Style) (line : List Char) : Style :=
  (fragments line).foldl afterFragment style

/-! ## Writing styles -/

/-- The control sequence that makes a setting. -/
def sequenceOf (setting : List Nat) : List Char :=
  '\x1b' :: '[' :: ((";".intercalate (setting.map toString)).toList ++ ['m'])

/-- The sequences that put a style in force. -/
def opening (style : Style) : List Char :=
  style.aspects.entries.flatMap fun (_, s) => sequenceOf s

/-- Whether there is anything to end: an aspect, or what stood before the text was cleared. -/
def isBare (style : Style) : Bool := style.aspects.entries.isEmpty && !style.cleared

/-- The sequences that end a style, each once.  What has no known meaning has no ending of its own,
so all is ended behind the others, and before them too if all was ended within the text. -/
def closing (style : Style) : List Char :=
  if style.isBare then []
  else
    let present := style.aspects.keys.map ending
    let all (b : Bool) := if b then sequenceOf [0] else []
    all (style.foreign && style.cleared)
      ++ ((endings.filter present.contains).flatMap fun n => sequenceOf [n])
      ++ all style.foreign

end Style

/-! ## Lines -/

/-- The lines of a text whose style at the beginning is `style`, each with a style of its own.  A
line without characters stays empty. -/
def styledFrom (style : Style) : List (List Char) → List (List Char)
  | [] => []
  | line :: lines =>
    if line.isEmpty then [] :: styledFrom style lines
    else
      let next := style.after line
      (style.opening ++ line ++ next.closing) :: styledFrom next lines

/-- The lines of a text, each with a style of its own.  A text of one line stays as it is. -/
def styledLines (l : List Char) : List (List Char) :=
  match pieces (· == '\n') l with
  | [line] => [line]
  | lines => styledFrom {} lines

end Text

end Automata
