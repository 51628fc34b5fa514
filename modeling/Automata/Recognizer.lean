import Automata.NFA.Determinization

/-!
# Automata of either kind

Where it does not matter to a caller whether an automaton is deterministic, it is handed over as
a `Recognizer`.
-/

set_option autoImplicit false

namespace Automata

/-- A deterministic or a nondeterministic automaton. -/
inductive Recognizer where
  /-- At most one move for each state and symbol. -/
  | deterministic (D : DFA)
  /-- Any number of moves for each state and symbol. -/
  | nondeterministic (A : NFA)
deriving DecidableEq

namespace Recognizer

/-- Decides acceptance in the way that the kind of automaton allows. -/
def accepts (r : Recognizer) (tape : List Char) : Bool :=
  match r with
  | deterministic D => D.accepts tape
  | nondeterministic A => A.accepts tape

/-- The automaton as a nondeterministic one. -/
def toNFA : Recognizer → NFA
  | deterministic D => D.toNFA
  | nondeterministic A => A

/-- The automaton as a deterministic one, by the subset construction where that is needed. -/
def toDFA : Recognizer → DFA
  | deterministic D => D
  | nondeterministic A => A.determinize

/-- The number of states. -/
def size (r : Recognizer) : Nat := r.toNFA.size

end Recognizer

end Automata
