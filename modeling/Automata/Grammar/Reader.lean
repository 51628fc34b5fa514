import Automata.Grammar.Basic
import Automata.Text.Blank

/-!
# Reading a grammar from text

Every line that is not blank has the rules of one nonterminal:

    LEFT -> RIGHT | RIGHT | …

A right side is a list of names.  A name is a nonterminal if it is the left side of some line,
before or after, and a terminal otherwise.  An empty right side, `eps` or `ε` stands for the empty
alternative.  The left side of the first line is the root.

## What is here

* `RuleLine`, `RuleLine.ofText` — a line cut into its left side and the rest.
* `ruleLinesOfText` — all lines of a text; it comes before any symbol is added to the table.
* `Grammar.ofText` — reads a whole text.
-/

set_option autoImplicit false

namespace Automata

open Text

/-- A line of a grammar, with its right sides still unread. -/
structure RuleLine where
  /-- The name on the left. -/
  left : List Char
  /-- What follows the arrow. -/
  rest : List Char
deriving DecidableEq, Repr

/-- Cuts a line at its arrow. -/
def RuleLine.ofText (line : List Char) : Except String RuleLine :=
  match cutAtArrow line with
  | none => .error "expected a rule of the form LHS -> RHS"
  | some (before, rest) =>
    let left := trimmed before
    if left.isEmpty || left.any isBlank then
      .error "the left-hand side must be a single name"
    else .ok ⟨left, rest⟩

/-- Cuts all lines that are not blank; the first of the lines has the given number. -/
def ruleLinesOfText (number : Nat) : List (List Char) → Except Error (List RuleLine)
  | [] => .ok []
  | line :: lines => do
    if (trimmed line).isEmpty then
      ruleLinesOfText (number + 1) lines
    else
      match RuleLine.ofText line with
      | .error reason => throw (.malformed number (String.ofList (trimmed line)) reason)
      | .ok head => return head :: (← ruleLinesOfText (number + 1) lines)

/-- The names that stand for the empty alternative. -/
def emptyNames : List (List Char) := ["eps".toList, "ε".toList]

/-- Reads a right side; the names in `lefts` are nonterminals. -/
def rightSideOfText (lefts : List (List Char)) (text : List Char) : Interning (List Symbol) :=
  let names := words text
  if names.length = 1 && names.any (· ∈ emptyNames) then return []
  else names.mapM fun name =>
    intern (if name ∈ lefts then .nonterminal else .terminal) (String.ofList name)

/-- Reads the rules of a line. -/
def rulesOfLine (lefts : List (List Char)) (line : RuleLine) : Interning (List Rule) := do
  let left ← intern .nonterminal (String.ofList line.left)
  (pieces (· == '|') line.rest).mapM fun piece => do
    return ⟨left, ← rightSideOfText lefts piece⟩

/-- Reads a grammar from a text. -/
def Grammar.ofText (text : String) : Interning Grammar := do
  let lines ← ofExcept (ruleLinesOfText 1 (lines text.toList))
  let lefts := lines.map RuleLine.left
  let rules := (← lines.mapM (rulesOfLine lefts)).flatten
  match rules with
  | [] => throw .missingStart
  | first :: _ => return ⟨first.left, FinSet.ofList rules⟩

end Automata
