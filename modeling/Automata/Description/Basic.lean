import Automata.Determinism
import Automata.Moore
import Automata.Recognizer

/-!
# Describing an automaton piece by piece

An automaton is described by statements: this is the start, this state is final, this edge exists.
Whether the description is deterministic is asked only when an automaton is made from it.

## What is here

* `Statement` — what can be said about an automaton.
* `Description` — everything that has been said, and `Description.add`.
* `Description.toNFA`, `Description.toDFA`, `Description.toRecognizer`, `Description.toMoore` — the
  automaton that is described, or what keeps it from being one.
-/

set_option autoImplicit false

namespace Automata

/-- Something that can be said about an automaton. -/
inductive Statement where
  /-- The runs begin in `q`, and no longer where was said before. -/
  | start (q : State)
  /-- A run may end in `q`. -/
  | final (q : State)
  /-- There is a state `q`. -/
  | state (q : State)
  /-- There is the edge `e`, hence its states and its symbol. -/
  | edge (e : Edge)
deriving DecidableEq, Repr

/-- What has been said about an automaton so far. -/
structure Description where
  /-- The start state, once it is named. -/
  start : Option State := none
  /-- All states that have been mentioned. -/
  states : FinSet State := ∅
  /-- The states that have been called final. -/
  finals : FinSet State := ∅
  /-- The symbols of all edges. -/
  alphabet : FinSet Char := ∅
  /-- All edges. -/
  edges : Relation := ∅
deriving DecidableEq

namespace Description

/-- The description before anything is said. -/
def empty : Description where

/-- The description with one more statement. -/
def add (d : Description) : Statement → Description
  | .start q => { d with start := some q, states := d.states.insert q }
  | .final q => { d with states := d.states.insert q, finals := d.finals.insert q }
  | .state q => { d with states := d.states.insert q }
  | .edge e =>
    { d with
      states := (d.states.insert e.source).insert e.target
      alphabet := d.alphabet.insert e.symbol
      edges := d.edges.insert e }

/-- The description with further statements, in order. -/
def addAll (d : Description) (statements : List Statement) : Description := statements.foldl add d

/-- The automaton that is described.  All it needs is a start state. -/
def toNFA (d : Description) : Except Error NFA :=
  match d.start with
  | none => .error .missingStart
  | some start =>
    .ok { states := d.states, alphabet := d.alphabet, start := start, finals := d.finals,
          edges := d.edges }

/-- The deterministic automaton that is described. -/
def toDFA (d : Description) : Except Error DFA := do
  let A ← d.toNFA
  A.asDFA

/-- The automaton that is described, deterministic if its relation is functional. -/
def toRecognizer (d : Description) : Except Error Recognizer := do
  let A ← d.toNFA
  match A.asDFA with
  | .ok D => return .deterministic D
  | .error _ => return .nondeterministic A

/-- The Moore machine that is described, with the listed outputs.  The last output listed for a
state counts. -/
def toMoore (d : Description) (outputs : List (State × Char)) : Except Error Moore := do
  let D ← d.toDFA
  Moore.ofDFA D (FinMap.ofList outputs)

end Description

end Automata
