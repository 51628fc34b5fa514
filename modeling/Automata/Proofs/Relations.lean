import Automata.Relation
import Mathlib.Data.List.Induction
import Mathlib.Data.String.Basic

/-!
# Functional relations made from lists

A functional relation is filled edge by edge, and a later edge replaces an earlier one along its
symbol.

## What is here

* `Edge.compare_eq_lt_iff` — the order of edges: by source, by symbol, by target.
* `FunctionalRelation.target?_ofList` — **the target of a state and symbol is the one that was
  inserted for them last.**
* `FunctionalRelation.mem_ofList_iff` — a list in which no edge competes with another loses none.
-/

set_option autoImplicit false

namespace Automata

open Std

/-- Edges are ordered by their sources, then by their symbols, then by their targets. -/
theorem Edge.compare_eq_lt_iff {e f : Edge} : compare e f = .lt ↔ e.source < f.source ∨
    e.source = f.source ∧ (e.symbol < f.symbol ∨ e.symbol = f.symbol ∧ e.target < f.target) := by
  have hlex : compare e f = compareLex (compareOn source)
      (compareLex (compareOn symbol) (compareOn target)) e f := rfl
  rw [hlex]
  simp only [compareLex, compareOn, Ordering.then_eq_lt, compare_lt_iff_lt, Std.compare_eq_iff_eq]

namespace FunctionalRelation

theorem ofList_append_singleton (l : List Edge) (e : Edge) :
    ofList (l ++ [e]) = (ofList l).insert e := by
  rw [ofList, List.foldl_append]
  rfl

@[simp] theorem target?_empty (q : State) (a : Char) :
    (∅ : FunctionalRelation).target? q a = none := rfl

/-- **The target of a state and symbol is the one that was inserted for them last.** -/
theorem target?_ofList (l : List Edge) (q : State) (a : Char) :
    (ofList l).target? q a = (l.reverse.find? (Edge.leaves q a)).map Edge.target := by
  induction l using List.reverseRecOn with
  | nil => rfl
  | append_singleton l e ih =>
    rw [ofList_append_singleton, target?_insert, List.reverse_append, List.reverse_singleton,
      List.singleton_append, List.find?_cons, ih]
    by_cases h : e.source = q ∧ e.symbol = a
    · rw [if_pos h, Edge.leaves_iff.2 h, Option.map_some]
    · have hleaves : e.leaves q a = false := Bool.eq_false_iff.2 fun ht => h (Edge.leaves_iff.1 ht)
      rw [if_neg h, hleaves]

/-- The relation of a list has no other edges than the list. -/
theorem mem_of_mem_ofList {l : List Edge} {e : Edge} (h : e ∈ (ofList l).edges) : e ∈ l := by
  have ht := target?_eq_some_iff.2 h
  rw [target?_ofList, Option.map_eq_some_iff] at ht
  obtain ⟨f, hf, hft⟩ := ht
  have hfe : f = e := by
    have hleaves := Edge.leaves_iff.1 (List.find?_some hf)
    cases f
    cases e
    simp_all
  exact hfe ▸ List.mem_reverse.1 (List.mem_of_find?_eq_some hf)

/-- A list in which no edge competes with another loses none. -/
theorem mem_ofList_iff {l : List Edge} {e : Edge}
    (hl : ∀ e ∈ l, ∀ f ∈ l, e.source = f.source → e.symbol = f.symbol → e = f) :
    e ∈ (ofList l).edges ↔ e ∈ l := by
  refine ⟨mem_of_mem_ofList, fun he => ?_⟩
  have hleaves : e.leaves e.source e.symbol = true := Edge.leaves_iff.2 ⟨rfl, rfl⟩
  obtain ⟨f, hf⟩ := Option.isSome_iff_exists.1
    (List.find?_isSome.2 ⟨e, List.mem_reverse.2 he, hleaves⟩)
  have hfl := Edge.leaves_iff.1 (List.find?_some hf)
  have hfe : f = e :=
    hl f (List.mem_reverse.1 (List.mem_of_find?_eq_some hf)) e he hfl.1 hfl.2
  refine target?_eq_some_iff.1 ?_
  rw [target?_ofList, hf, hfe, Option.map_some]

end FunctionalRelation

end Automata
