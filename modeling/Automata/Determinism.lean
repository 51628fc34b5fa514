import Automata.DFA.Basic
import Automata.Error

/-!
# Asking for determinism

A relation, or an automaton, that was put together without regard to determinism may turn out to
be deterministic after all.

## What is here

* `Relation.asFunctional` — the relation as a functional one, or the least state and symbol with
  several targets; `Relation.asFunctional_eq_ok_iff` says that nothing else changes.
* `NFA.asDFA` — the same for automata.
-/

set_option autoImplicit false

namespace Automata

/-- The relation as a functional one.  If it is none, the error names the least state and symbol
with several targets, and the targets in ascending order. -/
def Relation.asFunctional (r : Relation) : Except Error FunctionalRelation :=
  match h : Relation.ambiguity? r with
  | none => .ok ⟨r, Relation.ambiguity?_eq_none_iff.1 h⟩
  | some e => .error (.ambiguous e.source e.symbol (Relation.targets r e.source e.symbol).toList)

/-- **A relation passes as functional exactly if it is, and keeps its edges.** -/
theorem Relation.asFunctional_eq_ok_iff {r : Relation} {f : FunctionalRelation} :
    Relation.asFunctional r = .ok f ↔ f.edges = r := by
  unfold Relation.asFunctional
  split
  · constructor
    · intro h
      cases h
      rfl
    · rintro rfl
      rfl
  · rename_i e h
    constructor
    · intro h
      cases h
    · rintro rfl
      rw [Relation.ambiguity?_eq_none_iff.2 f.functional] at h
      cases h

/-- The automaton as a deterministic one, if its relation is functional. -/
def NFA.asDFA (A : NFA) : Except Error DFA :=
  (Relation.asFunctional A.edges).map fun moves =>
    { A with edges := moves.edges, functional := moves.functional }

end Automata
