import Automata.Relation
import Automata.Search

/-!
# Nondeterministic automata

An automaton reads a tape symbol by symbol, moving along the edges of its transition relation.
It accepts the tape if some sequence of moves reads all of it and ends in a final state.

## What is here

* `NFA` — the data of an automaton, and `NFA.WellFormed`, the promise that its parts fit together.
* `NFA.Path` and `NFA.Accepts` — what it means to read a tape and to accept it.
* `NFA.graph`, `NFA.reachable` — the states that can be reached from the start.
* `NFA.rename` — the automaton with its states replaced by their images.
-/

set_option autoImplicit false

namespace Automata

/-- A finite automaton that may have any number of moves for a state and symbol. -/
structure NFA where
  /-- All states. -/
  states : FinSet State
  /-- The symbols that the automaton knows. -/
  alphabet : FinSet Char
  /-- The state in which every run begins. -/
  start : State
  /-- The states in which a run may end successfully. -/
  finals : FinSet State
  /-- The moves. -/
  edges : Relation
deriving DecidableEq

namespace NFA

/-- The parts of an automaton fit together: its start, its finals and the ends of its edges are
among its states, and the symbols of its edges are in its alphabet. -/
structure WellFormed (A : NFA) : Prop where
  start_mem : A.start ∈ A.states
  finals_subset : ∀ q, q ∈ A.finals → q ∈ A.states
  source_mem : ∀ e, e ∈ A.edges → e.source ∈ A.states
  target_mem : ∀ e, e ∈ A.edges → e.target ∈ A.states
  symbol_mem : ∀ e, e ∈ A.edges → e.symbol ∈ A.alphabet

theorem wellFormed_iff {A : NFA} : A.WellFormed ↔
    A.start ∈ A.states ∧ (∀ q, q ∈ A.finals → q ∈ A.states) ∧
      ∀ e, e ∈ A.edges → e.source ∈ A.states ∧ e.symbol ∈ A.alphabet ∧ e.target ∈ A.states :=
  ⟨fun h => ⟨h.start_mem, h.finals_subset, fun e he =>
    ⟨h.source_mem e he, h.symbol_mem e he, h.target_mem e he⟩⟩,
  fun ⟨hstart, hfinals, hedges⟩ => ⟨hstart, hfinals, fun e he => (hedges e he).1,
    fun e he => (hedges e he).2.2, fun e he => (hedges e he).2.1⟩⟩

instance (A : NFA) : Decidable A.WellFormed :=
  decidable_of_iff (A.start ∈ A.states ∧ (∀ q ∈ A.finals.toList, q ∈ A.states) ∧
    ∀ e ∈ A.edges.toList, e.source ∈ A.states ∧ e.symbol ∈ A.alphabet ∧ e.target ∈ A.states)
    wellFormed_iff.symm

/-- `Path A p w q` says that `A` can move from `p` to `q` while it reads `w`. -/
inductive Path (A : NFA) : State → List Char → State → Prop where
  /-- Reading nothing leaves the state. -/
  | nil (q : State) : Path A q [] q
  /-- A move followed by a path. -/
  | cons {p r q : State} {a : Char} {w : List Char} :
      (⟨p, a, r⟩ : Edge) ∈ A.edges → Path A r w q → Path A p (a :: w) q

/-- `A` accepts the tapes along which it can move from its start to a final state. -/
def Accepts (A : NFA) (tape : List Char) : Prop := ∃ q, A.Path A.start tape q ∧ q ∈ A.finals

/-- The number of states. -/
def size (A : NFA) : Nat := A.states.size

/-- Whether `q` is a final state. -/
def isFinal (A : NFA) (q : State) : Bool := decide (q ∈ A.finals)

/-- The states that can be entered from `q` by reading `a`. -/
def next (A : NFA) (q : State) (a : Char) : FinSet State := A.edges.targets q a

/-! ## Reachable states -/

/-- The automaton as a graph: every edge is an arc, labelled with its symbol.  The arcs of a state
are ordered by symbol and then by target. -/
def graph (A : NFA) : Graph State where
  arcs q := (A.edges.toList.filter fun e => e.source = q).map fun e => (e.symbol, e.target)
  finite := ⟨A.edges.toList.map Edge.target, fun q arc h => by
    obtain ⟨e, he, rfl⟩ := List.mem_map.1 h
    exact List.mem_map.2 ⟨e, (List.mem_filter.1 he).1, rfl⟩⟩

/-- The states that can be reached from the start. -/
def reachable (A : NFA) : FinSet State := FinSet.ofList (A.graph.nodesFrom A.start)

/-! ## Replacing states -/

/-- The automaton with every state replaced by its image. -/
def rename (A : NFA) (f : State → State) : NFA where
  states := A.states.map f
  alphabet := A.alphabet
  start := f A.start
  finals := A.finals.map f
  edges := A.edges.mapStates f

end NFA

end Automata
