import Automata.DFA.Basic
import Automata.FinMap
import Automata.Error

/-!
# Moore machines

A Moore machine is a deterministic automaton that puts out a symbol whenever it enters a state,
the start included.

## What is here

* `Moore` — the automaton and its outputs.
* `Moore.ofDFA` — the only way to make one: every reachable state must have an output, and outputs
  for states that do not exist are dropped.
* `Moore.outputs` — what a run puts out.
-/

set_option autoImplicit false

namespace Automata

/-- A deterministic automaton with an output for its states. -/
structure Moore where
  /-- The automaton. -/
  automaton : DFA
  /-- What is put out on entering a state. -/
  output : FinMap State Char
deriving DecidableEq

namespace Moore

/-- Equips an automaton with outputs.  The least reachable state without one is an error. -/
def ofDFA (D : DFA) (output : FinMap State Char) : Except Error Moore :=
  match D.reachable.toList.find? fun q => (output.get? q).isNone with
  | some q => .error (.missingOutput q)
  | none => .ok ⟨D, output.filterKeys fun q => decide (q ∈ D.states)⟩

/-- The symbol that is put out on entering `q`. -/
def outputAt (m : Moore) (q : State) : Option Char := m.output.get? q

/-- The symbols that are put out while a tape is run. -/
def outputs (m : Moore) (tape : List Char) : Trace Char :=
  (m.automaton.run tape).filterMap m.outputAt

/-- Whether the underlying automaton accepts the tape. -/
def accepts (m : Moore) (tape : List Char) : Bool := m.automaton.accepts tape

end Moore

end Automata
