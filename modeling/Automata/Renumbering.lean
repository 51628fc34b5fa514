import Automata.DFA.Basic
import Automata.FinMap

/-!
# Numbering the states

States can be called `0`, `1`, `2`, … in the order in which a breadth-first search meets them, so
that the names of an automaton say nothing about where it came from.

## What is here

* `NFA.numberingOrder` — the states in that order: by discovery from the start, then the states
  that cannot be reached, ascending.
* `NFA.numbering` — from each old name to the new one.
* `NFA.renumber`, `DFA.renumber` — the automaton under its new names.
-/

set_option autoImplicit false

namespace Automata

/-- The image of a state under a map; a state without an entry is left alone. -/
def FinMap.rename (m : FinMap State State) (q : State) : State := (m.get? q).getD q

/-- Gives the decimal names `0`, `1`, … to the states of a list. -/
def numberNames (order : List State) : FinMap State State :=
  FinMap.ofList (order.zipIdx.map fun (q, i) => (q, toString i))

namespace NFA

/-- The states in the order in which they are numbered. -/
def numberingOrder (A : NFA) : List State :=
  let found := A.graph.nodesFrom A.start
  found ++ A.states.toList.filter fun q => decide (q ∉ found)

/-- The new name of every state. -/
def numbering (A : NFA) : FinMap State State := numberNames A.numberingOrder

/-- The automaton with its states called by their numbers. -/
def renumber (A : NFA) : NFA :=
  let numbering := A.numbering
  A.rename numbering.rename

end NFA

namespace DFA

/-- The automaton with its states called by their numbers. -/
def renumber (D : DFA) : DFA :=
  let numbering := D.numbering
  D.rename numbering.rename

end DFA

end Automata
