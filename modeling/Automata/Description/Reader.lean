import Automata.Description.Basic
import Automata.Text.Blank

/-!
# Reading a description from text

Every line that is not blank describes one state:

    [->] [()] name [-> symbol target | symbol target | …]

A leading `->` marks the start state and a leading `()` a final one.  An alternative is a symbol
and a target, with or without a blank between them.

## What is here

* `StateLine` — the head of a line, and `StateLine.ofText?` which reads it.
* `alternativeOfText?` — reads one alternative.
* `Description.ofText` — reads a whole text; the first line that does not fit is the error.
-/

set_option autoImplicit false

namespace Automata

open Text

/-- A line that describes a state, with its alternatives still unread. -/
structure StateLine where
  /-- Whether the state is marked as the start. -/
  isStart : Bool := false
  /-- Whether the state is marked as final. -/
  isFinal : Bool := false
  /-- The name of the state. -/
  name : List Char
  /-- What follows the arrow after the name, if there is one. -/
  alternatives : Option (List Char)

namespace StateLine

theorem length_trimmedFront_le (l : List Char) : (trimmedFront l).length ≤ l.length :=
  (List.dropWhile_sublist _).length_le

/-- Takes the markers off the front of a line: whether `->` and whether `()` was among them, and
what is left. -/
def takeMarkers (isStart isFinal : Bool) : List Char → Bool × Bool × List Char
  | '-' :: '>' :: rest => takeMarkers true isFinal (trimmedFront rest)
  | '(' :: ')' :: rest => takeMarkers isStart true (trimmedFront rest)
  | rest => (isStart, isFinal, rest)
termination_by l => l.length
decreasing_by
  all_goals
    have := length_trimmedFront_le rest
    simp only [List.length_cons]
    omega

/-- Why a name cannot be the name of a state, if it cannot. -/
def nameFault? (name : List Char) : Option String :=
  if name.isEmpty then some "missing state name"
  else if name.any fun c => isBlank c || c == '|' then
    some "state names must not contain whitespace or '|'"
  else none

/-- Reads the head of a line. -/
def ofText (line : List Char) : Except String StateLine :=
  let (isStart, isFinal, rest) := takeMarkers false false (trimmed line)
  let (name, alternatives) :=
    match cutAtArrow rest with
    | some (before, after) => (trimmed before, some after)
    | none => (trimmed rest, none)
  match nameFault? name with
  | some reason => .error reason
  | none => .ok { isStart, isFinal, name, alternatives }

/-- What the markers and the name of a line say. -/
def statements (l : StateLine) : List Statement :=
  let q := String.ofList l.name
  (if l.isStart then [.start q] else []) ++ (if l.isFinal then [.final q] else []) ++ [.state q]

end StateLine

/-- Reads an alternative: a symbol and a target as two words, or as one word of two or more
characters. -/
def alternativeOfText? (text : List Char) : Option (Char × State) :=
  match words text with
  | [[a], target] => some (a, String.ofList target)
  | [a :: b :: target] => some (a, String.ofList (b :: target))
  | _ => none

/-- Reads the alternatives of the state `q`, which are separated by bars. -/
def edgesOfText (q : State) (text : List Char) : Except String (List Statement) :=
  (pieces (· == '|') text).mapM fun piece =>
    match alternativeOfText? piece with
    | some (a, p) => .ok (.edge ⟨q, a, p⟩)
    | none =>
      let shown := String.ofList (trimmed piece)
      .error s!"invalid alternative \"{shown}\""

/-- Reads a line, given the start state that earlier lines have declared. -/
def statementsOfLine (declared : Option State) (line : List Char) :
    Except String (List Statement) := do
  let head ← StateLine.ofText line
  let q := String.ofList head.name
  match declared with
  | some previous =>
    if head.isStart && previous != q then
      throw s!"start state {previous} has already been declared"
  | none => pure ()
  match head.alternatives with
  | none => return head.statements
  | some text => return head.statements ++ (← edgesOfText q text)

namespace Description

/-- Adds what a numbered line says; a blank line says nothing. -/
def addLine (d : Description) (number : Nat) (line : List Char) : Except Error Description :=
  if (trimmed line).isEmpty then .ok d
  else
    match statementsOfLine d.start line with
    | .ok statements => .ok (d.addAll statements)
    | .error reason => .error (.malformed number (String.ofList (trimmed line)) reason)

/-- Adds what the lines of a text say, the first of which has the given number. -/
def addLines (d : Description) (number : Nat) : List (List Char) → Except Error Description
  | [] => .ok d
  | line :: rest =>
    match d.addLine number line with
    | .ok d' => addLines d' (number + 1) rest
    | .error e => .error e

/-- Reads a description from a text. -/
def ofText (text : String) : Except Error Description := empty.addLines 1 (lines text.toList)

end Description

end Automata
