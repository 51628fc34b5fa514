import Automata.NFA.Basic

/-!
# Deterministic automata

A deterministic automaton is an automaton whose transition relation is functional.  A tape has at
most one run, which either reads all of it or gets stuck at a symbol without a move.

## What is here

* `DFA`, an `NFA` with a functional relation; everything that needs no determinism is inherited.
* `Trace` — the states a run visits, together with whether it could read the whole tape.
* `DFA.run`, `DFA.accepts`.
* `DFA.rename` — the automaton with its states replaced by their images.
-/

set_option autoImplicit false

namespace Automata

/-- A finite automaton with at most one move for each state and symbol. -/
structure DFA extends NFA where
  /-- No state has two moves along one symbol. -/
  functional : edges.IsFunctional

/-- What a run leaves behind: the things met on the way, in order, and how the run ended. -/
inductive Trace (α : Type) where
  /-- The whole tape was read. -/
  | complete (visited : List α)
  /-- There was no move for the next symbol. -/
  | stuck (visited : List α)
deriving DecidableEq, Repr

namespace Trace

variable {α β : Type}

/-- Everything that was met, however the run ended. -/
def visited : Trace α → List α
  | complete l => l
  | stuck l => l

/-- The trace with `a` met before everything else. -/
def push (a : α) : Trace α → Trace α
  | complete l => complete (a :: l)
  | stuck l => stuck (a :: l)

/-- The trace of what `f` finds for the things that were met. -/
def filterMap (f : α → Option β) : Trace α → Trace β
  | complete l => complete (l.filterMap f)
  | stuck l => stuck (l.filterMap f)

end Trace

namespace DFA

theorem toNFA_injective {D E : DFA} (h : D.toNFA = E.toNFA) : D = E := by
  cases D
  cases E
  simp_all

instance : DecidableEq DFA := fun D E =>
  if h : D.toNFA = E.toNFA then
    isTrue (toNFA_injective h)
  else
    isFalse (fun e => h (congrArg toNFA e))

/-- The moves as a functional relation. -/
def moves (D : DFA) : FunctionalRelation := ⟨D.edges, D.functional⟩

/-- The only state that can be entered from `q` by reading `a`, if there is one. -/
def next? (D : DFA) (q : State) (a : Char) : Option State := D.moves.target? q a

/-- Runs a tape from a state.  The state itself is met first. -/
def runFrom (D : DFA) (q : State) : List Char → Trace State
  | [] => .complete [q]
  | a :: w =>
    match D.next? q a with
    | none => .stuck [q]
    | some p => (runFrom D p w).push q

/-- Runs a tape from the start. -/
def run (D : DFA) (tape : List Char) : Trace State := D.runFrom D.start tape

/-- Decides acceptance: the run reads the whole tape and the state met last is final. -/
def accepts (D : DFA) (tape : List Char) : Bool :=
  match D.run tape with
  | .complete visited => visited.getLast?.any D.isFinal
  | .stuck _ => false

/-- The automaton with every state replaced by its image. -/
def rename (D : DFA) (f : State → State) : DFA :=
  let moves := D.moves.mapStates f
  { D.toNFA.rename f with edges := moves.edges, functional := moves.functional }

end DFA

end Automata
