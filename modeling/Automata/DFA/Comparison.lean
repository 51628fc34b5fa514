import Automata.DFA.Basic

/-!
# Comparing two deterministic automata

Two automata are compared by running them side by side.  A run that has got stuck stays in the
comparison as `none`, which accepts nothing.

## What is here

* `DFA.Pairing` — the positions of two automata that read the same tape.
* `DFA.productGraph` — how positions follow one another; positions in which both runs are stuck
  are left out, since nothing can be told apart from there.
* `DFA.leastDifference?` — the first word on which the automata disagree, in the order of length
  and then of symbols.
-/

set_option autoImplicit false

namespace Automata

namespace DFA

/-- The positions of two automata that read the same tape; `none` once a run is stuck. -/
abbrev Pairing := Option State × Option State

/-- Whether a run that stands at `q` accepts. -/
def acceptsAt (D : DFA) (q : Option State) : Bool := q.any D.isFinal

/-- The position after reading one more symbol. -/
def advance (D E : DFA) (p : Pairing) (a : Char) : Pairing :=
  (p.1.bind (D.next? · a), p.2.bind (E.next? · a))

theorem next?_mem_targets {D : DFA} {q p : State} {a : Char} (h : D.next? q a = some p) :
    p ∈ D.edges.toList.map Edge.target :=
  List.mem_map.2 ⟨_, FunctionalRelation.target?_eq_some_iff.1 h, rfl⟩

/-- The positions of two automata as a graph over the symbols of both. -/
def productGraph (D E : DFA) : Graph Pairing where
  arcs p := (D.alphabet.union E.alphabet).toList.filterMap fun a =>
    let p' := advance D E p a
    if p' = (none, none) then none else some (a, p')
  finite := by
    refine ⟨(none :: (D.edges.toList.map Edge.target).map some).flatMap fun p =>
      (none :: (E.edges.toList.map Edge.target).map some).map fun q => (p, q),
      fun p arc h => ?_⟩
    obtain ⟨a, _, ha⟩ := List.mem_filterMap.1 h
    have harc : arc.2 = advance D E p a := by
      by_cases hn : advance D E p a = (none, none)
      · simp [hn] at ha
      · simp only [hn, if_false, Option.some.injEq] at ha
        rw [← ha]
    rw [harc, advance, List.mem_flatMap]
    refine ⟨p.1.bind (D.next? · a), ?_, List.mem_map.2 ⟨p.2.bind (E.next? · a), ?_, rfl⟩⟩
    · cases hd : p.1.bind (D.next? · a) with
      | none => exact List.mem_cons_self
      | some q =>
        obtain ⟨r, _, hr⟩ := Option.bind_eq_some_iff.1 hd
        exact List.mem_cons_of_mem _ (List.mem_map.2 ⟨q, next?_mem_targets hr, rfl⟩)
    · cases he : p.2.bind (E.next? · a) with
      | none => exact List.mem_cons_self
      | some q =>
        obtain ⟨r, _, hr⟩ := Option.bind_eq_some_iff.1 he
        exact List.mem_cons_of_mem _ (List.mem_map.2 ⟨q, next?_mem_targets hr, rfl⟩)

/-- The least word, by length and then by symbols, that one automaton accepts and the other
rejects, if there is one. -/
def leastDifference? (D E : DFA) : Option (List Char) :=
  let visits := (productGraph D E).discover (some D.start, some E.start)
  (visits.find? fun v => D.acceptsAt v.node.1 != E.acceptsAt v.node.2).map Visit.word

/-- Whether the automata accept the same tapes. -/
def isEquivalent (D E : DFA) : Bool := (leastDifference? D E).isNone

end DFA

end Automata
