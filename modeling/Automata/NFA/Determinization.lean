import Automata.NFA.Acceptance
import Automata.DFA.Basic

/-!
# The subset construction

Following all runs of an automaton at once is itself a deterministic run: its states are the sets
of states that can be active together.

## What is here

* `NFA.subsetGraph` — the non-empty sets of active states and how one follows another.
* `NFA.subsets` — those that can be reached, in the order of discovery, and `NFA.namedSubsets`,
  where each is given its name.
* `NFA.determinize` — the deterministic automaton on these names.
-/

set_option autoImplicit false

namespace Automata

namespace NFA

/-- The sets of active states as a graph.  A set without members is left out: the run it belongs
to cannot go on. -/
def subsetGraph (A : NFA) : Graph (FinSet State) where
  arcs active := A.alphabet.toList.filterMap fun a =>
    let active' := A.step active a
    if active'.isEmpty then none else some (a, active')
  finite := by
    obtain ⟨sets, hsets⟩ := FinSet.exists_list_of_subsets (A.edges.toList.map Edge.target)
    refine ⟨sets, fun active arc h => hsets _ fun p hp => ?_⟩
    obtain ⟨a, _, ha⟩ := List.mem_filterMap.1 h
    have harc : arc.2 = A.step active a := by
      by_cases he : (A.step active a).isEmpty = true
      · simp [he] at ha
      · simp only [he, Bool.false_eq_true, if_false, Option.some.injEq] at ha
        rw [← ha]
    obtain ⟨q, _, he⟩ := mem_step.1 (harc ▸ hp)
    exact List.mem_map.2 ⟨_, he, rfl⟩

/-- The sets of states that can be active together, in the order of discovery. -/
def subsets (A : NFA) : List (FinSet State) :=
  A.subsetGraph.nodesFrom (FinSet.singleton A.start)

/-- The reachable subsets with their names.  A set is called by its members, and primed if an
earlier set has that name. -/
def namedSubsets (A : NFA) : List (FinSet State × State) :=
  let subsets := A.subsets
  subsets.zip (supply [] (subsets.map fun active => braced active.toList))

/-- The moves between named subsets. -/
def subsetEdges (A : NFA) (named : List (FinSet State × State)) : List Edge :=
  named.flatMap fun (active, name) =>
    (A.subsetGraph.arcs active).filterMap fun (a, active') =>
      (named.lookup active').map fun name' => ⟨name, a, name'⟩

/-- The deterministic automaton that follows all runs of `A` at once. -/
def determinize (A : NFA) : DFA :=
  let named := A.namedSubsets
  let moves := FunctionalRelation.ofList (A.subsetEdges named)
  { states := FinSet.ofList (named.map Prod.snd)
    alphabet := A.alphabet
    start := braced [A.start]
    finals := FinSet.ofList ((named.filter fun (active, _) => active.meets A.finals).map Prod.snd)
    edges := moves.edges
    functional := moves.functional }

end NFA

end Automata
