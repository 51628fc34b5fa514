import Automata.Proofs.Runs
import Automata.Proofs.Search

/-!
# Reachable states

The reachable states are found by following edges as the arcs of a graph.  Walks in that graph are
paths of the automaton.

## What is here

* `NFA.mem_reachable_iff` — **a state is reachable exactly if some tape leads to it.**
* `NFA.reachable_subset`, `NFA.reachable_closed` — in a well-formed automaton these are states, and
  no edge leads out of them.
* `DFA.mem_reachable_iff_after` — the same for deterministic runs.
-/

set_option autoImplicit false

namespace Automata

namespace NFA

variable {A : NFA}

theorem mem_graph_arcs {q p : State} {a : Char} :
    (a, p) ∈ A.graph.arcs q ↔ (⟨q, a, p⟩ : Edge) ∈ A.edges := by
  rw [graph, List.mem_map]
  refine ⟨?_, fun he => ?_⟩
  · rintro ⟨⟨s, b, t⟩, he, heq⟩
    obtain ⟨he, hs⟩ := List.mem_filter.1 he
    cases heq
    exact of_decide_eq_true hs ▸ he
  · exact ⟨⟨q, a, p⟩, List.mem_filter.2 ⟨he, decide_eq_true rfl⟩, rfl⟩

/-- Walks along the edges are paths. -/
theorem walk_iff_path {q p : State} {w : List Char} : A.graph.Walk q w p ↔ A.Path q w p := by
  refine ⟨fun h => ?_, fun h => ?_⟩
  · induction h with
    | nil a => exact .nil a
    | cons harc _ ih => exact .cons (mem_graph_arcs.1 harc) ih
  · induction h with
    | nil q => exact .nil q
    | cons he _ ih => exact .cons (mem_graph_arcs.2 he) ih

/-- **A state is reachable exactly if some tape leads to it.** -/
theorem mem_reachable_iff {q : State} : q ∈ A.reachable ↔ ∃ w, A.Path A.start w q := by
  rw [reachable, FinSet.mem_ofList, Graph.mem_nodesFrom_iff]
  exact exists_congr fun w => walk_iff_path

theorem start_mem_reachable : A.start ∈ A.reachable := mem_reachable_iff.2 ⟨[], .nil _⟩

/-- No edge leads out of the reachable states. -/
theorem reachable_closed {q p : State} {a : Char} (hq : q ∈ A.reachable)
    (he : (⟨q, a, p⟩ : Edge) ∈ A.edges) : p ∈ A.reachable := by
  obtain ⟨w, hw⟩ := mem_reachable_iff.1 hq
  exact mem_reachable_iff.2 ⟨w ++ [a], hw.append (.cons he (.nil p))⟩

/-- The ends of paths from a state are states. -/
theorem Path.mem_states (hA : A.WellFormed) {q p : State} {w : List Char} (h : A.Path q w p)
    (hq : q ∈ A.states) : p ∈ A.states := by
  induction h with
  | nil => exact hq
  | cons he _ ih => exact ih (hA.target_mem _ he)

/-- Only symbols of the alphabet are read on the way. -/
theorem Path.mem_alphabet (hA : A.WellFormed) {q p : State} {w : List Char} (h : A.Path q w p)
    {a : Char} (ha : a ∈ w) : a ∈ A.alphabet := by
  induction h with
  | nil => exact absurd ha List.not_mem_nil
  | cons he _ ih =>
    rcases List.mem_cons.1 ha with rfl | ha
    · exact hA.symbol_mem _ he
    · exact ih ha

theorem reachable_subset (hA : A.WellFormed) {q : State} (hq : q ∈ A.reachable) : q ∈ A.states := by
  obtain ⟨w, hw⟩ := mem_reachable_iff.1 hq
  exact hw.mem_states hA hA.start_mem

end NFA

namespace DFA

variable {D : DFA}

/-- A state is reachable exactly if it is the position after some tape. -/
theorem mem_reachable_iff_after {q : State} :
    q ∈ D.reachable ↔ ∃ w, D.after (some D.start) w = some q := by
  rw [NFA.mem_reachable_iff]
  exact exists_congr fun w => after_eq_some_iff.symm

end DFA

end Automata
