import Automata.Moore
import Automata.Recognizer
import Automata.Text.Grid
import Automata.Text.Quoted

/-!
# Transition tables

An automaton is shown as a table with a row for each state and a column for each symbol.  The start
is marked by `->` and final states by `()`.  The table of a Moore machine has a further column for
the outputs.
-/

set_option autoImplicit false

namespace Automata

open Text

namespace NFA

/-- The marks in front of a state. -/
def marker (A : NFA) (q : State) : String :=
  (if q = A.start then "-> " else "") ++ (if A.isFinal q then "() " else "")

/-- What stands in the row of `q` and the column of `a`; a dash if nothing else does. -/
def targetCell (A : NFA) (q : State) (a : Char) : String :=
  let text := ", ".intercalate (A.next q a).toList
  if text.isEmpty then "-" else text

/-- The heading of the table, without further columns. -/
def heading (A : NFA) : List String := "State" :: A.alphabet.toList.map String.singleton

/-- The row of a state, without further columns. -/
def row (A : NFA) (q : State) : List String :=
  (A.marker q ++ q) :: A.alphabet.toList.map (A.targetCell q)

/-- The transition table. -/
def render (A : NFA) : String := grid A.heading (A.states.toList.map A.row)

end NFA

/-- The transition table. -/
def Recognizer.render (r : Recognizer) : String := r.toNFA.render

namespace Moore

/-- The output of a state as it stands in the table; a dash if there is none. -/
def outputCell (m : Moore) (q : State) : String :=
  match m.outputAt q with
  | some c => quoted '\'' [c]
  | none => "-"

/-- The transition table with the outputs. -/
def render (m : Moore) : String :=
  let A := m.automaton.toNFA
  grid (A.heading ++ ["output"]) (A.states.toList.map fun q => A.row q ++ [m.outputCell q])

end Moore

end Automata
