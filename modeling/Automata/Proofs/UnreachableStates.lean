import Automata.Proofs.Minimization
import Automata.Proofs.SubsetStates
import Mathlib

/-!
# Unreachable states do not show

Minimization and determinization number, sort and name what they find, so an unreachable state that
got into one of their lists would show in a name at least.  None does.  Two automata that agree on
what can be reached are searched alike, give the same table of points and the same sets of active
states, and hence the same names.

## What is here

* `NFA.SameWithinReach` — two automata agree except for states that cannot be reached, and
  `NFA.SameWithinReach.reachable_eq` — then the same states can be reached.
* `NFA.SameWithinReach.namedSubsets_eq`, `NFA.SameWithinReach.determinize_eq` — the same sets of
  states are discovered, under the same names.
* `DFA.merging_eq`, `DFA.minimize_eq` — the same points are sorted into the same classes.
* `unreachable_states_invisible` — **so neither transformation shows what cannot be reached.**
-/

set_option autoImplicit false

namespace Automata

namespace NFA

/-- The automata agree on everything that can be reached.  They may have other states besides, other
finals among those and other edges that leave them. -/
structure SameWithinReach (A B : NFA) : Prop where
  /-- They know the same symbols. -/
  alphabet_eq : A.alphabet = B.alphabet
  /-- Runs begin in the same state. -/
  start_eq : A.start = B.start
  /-- Of the states that can be reached, the same are final. -/
  final_iff : ∀ q, q ∈ A.reachable → (q ∈ A.finals ↔ q ∈ B.finals)
  /-- The same edges leave the states that can be reached. -/
  edge_iff : ∀ e, e.source ∈ A.reachable → (e ∈ A.edges ↔ e ∈ B.edges)

variable {A B : NFA} {s : FinSet State} {p q : State} {w : List Char}

theorem sameWithinReach_iff : A.SameWithinReach B ↔
    A.alphabet = B.alphabet ∧ A.start = B.start ∧
      (∀ q ∈ A.reachable.toList, (q ∈ A.finals ↔ q ∈ B.finals)) ∧
      ∀ e ∈ A.edges.toList ++ B.edges.toList, e.source ∈ A.reachable →
        (e ∈ A.edges ↔ e ∈ B.edges) := by
  refine ⟨fun h => ⟨h.alphabet_eq, h.start_eq, h.final_iff, fun e _ => h.edge_iff e⟩, ?_⟩
  rintro ⟨halphabet, hstart, hfinals, hedges⟩
  refine ⟨halphabet, hstart, hfinals, fun e hs => ?_⟩
  by_cases he : e ∈ A.edges.toList ++ B.edges.toList
  · exact hedges e he hs
  · rw [List.mem_append, not_or] at he
    exact iff_of_false he.1 he.2

namespace SameWithinReach

/-- The same paths leave the states that can be reached. -/
theorem path_iff (h : A.SameWithinReach B) (hq : q ∈ A.reachable) :
    A.Path q w p ↔ B.Path q w p := by
  induction w generalizing q with
  | nil =>
    constructor <;> rintro ⟨⟩
    · exact .nil _
    · exact .nil _
  | cons a w ih =>
    rw [path_cons_iff, path_cons_iff]
    refine exists_congr fun r => ?_
    rw [← h.edge_iff ⟨q, a, r⟩ hq]
    exact and_congr_right fun he => ih (reachable_closed hq he)

/-- **The same states can be reached.** -/
theorem reachable_eq (h : A.SameWithinReach B) : A.reachable = B.reachable := by
  refine FinSet.ext fun q => ?_
  rw [mem_reachable_iff, mem_reachable_iff, ← h.start_eq]
  exact exists_congr fun w => h.path_iff start_mem_reachable

end SameWithinReach

/-! ## The subset construction -/

/-- All states of the set can be reached. -/
def WithinReach (A : NFA) (s : FinSet State) : Prop := ∀ q, q ∈ s → q ∈ A.reachable

theorem withinReach_singleton_start : A.WithinReach (FinSet.singleton A.start) := fun _ hq =>
  FinSet.mem_singleton.1 hq ▸ start_mem_reachable

/-- Arcs between sets do not lead out of reach. -/
theorem WithinReach.arc (hs : A.WithinReach s) {arc : Char × FinSet State}
    (harc : arc ∈ A.subsetGraph.arcs s) : A.WithinReach arc.2 := by
  obtain ⟨a, t⟩ := arc
  obtain ⟨_, _, rfl⟩ := mem_subsetGraph_arcs.1 harc
  intro q hq
  obtain ⟨p, hp, he⟩ := mem_step.1 hq
  exact reachable_closed (hs p hp) he

theorem withinReach_of_mem_subsets (hs : s ∈ A.subsets) : A.WithinReach s := by
  obtain ⟨w, hw⟩ := Graph.mem_nodesFrom_iff.1 hs
  exact hw.closed (P := A.WithinReach) (fun _ ht _ harc => ht.arc harc) withinReach_singleton_start

namespace SameWithinReach

theorem step_eq (h : A.SameWithinReach B) (hs : A.WithinReach s) (a : Char) :
    A.step s a = B.step s a := by
  refine FinSet.ext fun p => ?_
  rw [mem_step, mem_step]
  exact exists_congr fun q => and_congr_right fun hq => h.edge_iff ⟨q, a, p⟩ (hs q hq)

theorem meets_eq (h : A.SameWithinReach B) (hs : A.WithinReach s) :
    s.meets A.finals = s.meets B.finals := by
  rw [Bool.eq_iff_iff, FinSet.meets_iff, FinSet.meets_iff]
  exact exists_congr fun q => and_congr_right fun hq => h.final_iff q (hs q hq)

/-- The same arcs leave a set of states that can be reached. -/
theorem arcs_eq (h : A.SameWithinReach B) (hs : A.WithinReach s) :
    A.subsetGraph.arcs s = B.subsetGraph.arcs s := by
  simp only [subsetGraph, h.alphabet_eq, h.step_eq hs]

/-- The same sets are discovered, in the same order. -/
theorem subsets_eq (h : A.SameWithinReach B) : A.subsets = B.subsets := by
  rw [subsets, subsets, ← h.start_eq]
  exact Graph.nodesFrom_congr (P := A.WithinReach) (fun _ hs _ harc => hs.arc harc)
    (fun _ hs => h.arcs_eq hs) withinReach_singleton_start

/-- **The same sets have the same names.** -/
theorem namedSubsets_eq (h : A.SameWithinReach B) : A.namedSubsets = B.namedSubsets := by
  rw [namedSubsets, namedSubsets, h.subsets_eq]

theorem subsetName_eq (h : A.SameWithinReach B) (s : FinSet State) :
    A.subsetName s = B.subsetName s := by
  rw [subsetName, subsetName, h.namedSubsets_eq]

/-- **Determinization shows nothing of what cannot be reached.** -/
theorem determinize_eq (h : A.SameWithinReach B) : A.determinize = B.determinize := by
  -- a set that has a name was discovered
  have hwithin : ∀ {s n}, A.subsetName s = some n → A.WithinReach s := fun hn =>
    withinReach_of_mem_subsets (mem_subsets_of_subsetName hn)
  have hstates : A.determinize.states = B.determinize.states := FinSet.ext fun n => by
    simp only [mem_determinize_states, h.subsetName_eq]
  have hfinals : A.determinize.finals = B.determinize.finals := FinSet.ext fun n => by
    simp only [mem_determinize_finals, ← h.subsetName_eq]
    exact exists_congr fun s => and_congr_right fun hn => by rw [h.meets_eq (hwithin hn)]
  have hedges : A.determinize.edges = B.determinize.edges := by
    refine FinSet.ext ?_
    rintro ⟨m, a, n⟩
    simp only [mem_determinize_edges, ← h.subsetName_eq, ← h.alphabet_eq]
    exact exists_congr fun s => and_congr_right fun hm => by rw [h.step_eq (hwithin hm)]
  refine DFA.toNFA_injective ?_
  calc A.determinize.toNFA
      = ⟨A.determinize.states, A.alphabet, braced [A.start], A.determinize.finals,
          A.determinize.edges⟩ := rfl
    _ = ⟨B.determinize.states, B.alphabet, braced [B.start], B.determinize.finals,
          B.determinize.edges⟩ := by
        rw [hstates, h.alphabet_eq, h.start_eq, hfinals, hedges]
    _ = B.determinize.toNFA := rfl

end SameWithinReach

end NFA

/-! ## Minimization -/

namespace DFA

variable {D E : DFA} {q : State}

theorem next?_eq (h : D.toNFA.SameWithinReach E.toNFA) (hq : q ∈ D.reachable) (a : Char) :
    D.next? q a = E.next? q a := by
  refine Option.ext fun p => ?_
  rw [next?_eq_some_iff, next?_eq_some_iff]
  exact h.edge_iff ⟨q, a, p⟩ hq

/-- The points have the same successors, and the same of them are accepting. -/
theorem pointTable_eq (h : D.toNFA.SameWithinReach E.toNFA) : D.pointTable = E.pointTable := by
  have hrow : ∀ q ∈ D.reachable.toList,
      D.pointRow D.reachable.toList q = E.pointRow D.reachable.toList q := by
    intro q hq
    rw [pointRow, pointRow, ← h.alphabet_eq]
    exact List.map_congr_left fun a _ => by rw [next?_eq h hq]
  have hfinal : ∀ q ∈ D.reachable.toList, D.isFinal q = E.isFinal q := by
    intro q hq
    rw [NFA.isFinal, NFA.isFinal, decide_eq_decide]
    exact h.final_iff q hq
  rw [pointTable, pointTable, ← h.reachable_eq, ← h.alphabet_eq, List.map_congr_left hrow,
    List.map_congr_left hfinal]

/-- **The same points are sorted into the same classes.** -/
theorem merging_eq (h : D.toNFA.SameWithinReach E.toNFA) : D.merging = E.merging := by
  rw [merging, merging, pointTable_eq h, h.reachable_eq]

/-- **Minimization shows nothing of what cannot be reached.** -/
theorem minimize_eq (h : D.toNFA.SameWithinReach E.toNFA) : D.minimize = E.minimize := by
  rw [minimize, minimize, merging_eq h, h.alphabet_eq, h.start_eq]

end DFA

/-- **States that cannot be reached are invisible to minimization and to determinization.**  If two
automata agree on the alphabet, the start and what can be reached, the results are equal, names
included. -/
theorem unreachable_states_invisible :
    (∀ D E : DFA, D.toNFA.SameWithinReach E.toNFA → D.minimize = E.minimize) ∧
      ∀ A B : NFA, A.SameWithinReach B → A.determinize = B.determinize :=
  ⟨fun _ _ h => DFA.minimize_eq h, fun _ _ h => h.determinize_eq⟩

/-- The states `p` and `q` fall into one class, whose canonical name is that of `p,q` as well. -/
def collidingClasses : DFA :=
  let moves := FunctionalRelation.ofList
    [⟨"s", 'a', "p"⟩, ⟨"s", 'b', "q"⟩, ⟨"s", 'c', "p,q"⟩, ⟨"p,q", 'a', "p"⟩]
  { states := FinSet.ofList ["p", "p,q", "q", "s"]
    alphabet := FinSet.ofList ['a', 'b', 'c']
    start := "s"
    finals := FinSet.ofList ["p", "p,q", "q"]
    edges := moves.edges
    functional := moves.functional }

/-- The same with unreachable states, one of which would join the class of `p` and `q`, while the
other has their name. -/
def collidingClassesAndMore : DFA :=
  let moves := FunctionalRelation.ofList
    [⟨"s", 'a', "p"⟩, ⟨"s", 'b', "q"⟩, ⟨"s", 'c', "p,q"⟩, ⟨"p,q", 'a', "p"⟩,
      ⟨"\x7bp,q\x7d", 'a', "s"⟩, ⟨"\x7bp,q\x7d", 'b', "o"⟩]
  { states := FinSet.ofList ["o", "p", "p,q", "q", "s", "\x7bp,q\x7d"]
    alphabet := FinSet.ofList ['a', 'b', 'c']
    start := "s"
    finals := FinSet.ofList ["o", "p", "p,q", "q", "\x7bp,q\x7d"]
    edges := moves.edges
    functional := moves.functional }

/-- The automaton `collidingNames` with unreachable states. -/
def collidingNamesAndMore : NFA where
  states := FinSet.ofList ["", "0", "1", "1,2", "2", "\x7b1,2\x7d"]
  alphabet := FinSet.ofList ['a', 'b']
  start := ""
  finals := FinSet.ofList ["0", "1,2"]
  edges := FinSet.ofList [⟨"", 'a', "1"⟩, ⟨"", 'a', "2"⟩, ⟨"", 'b', "1,2"⟩, ⟨"0", 'a', "1"⟩,
    ⟨"0", 'a', "\x7b1,2\x7d"⟩, ⟨"\x7b1,2\x7d", 'b', "0"⟩]

theorem collidingNames_invisible :
    (collidingClasses.WellFormed ∧ collidingClassesAndMore.WellFormed ∧
      collidingClasses.toNFA.SameWithinReach collidingClassesAndMore.toNFA ∧
      collidingClasses.minimize.states
        = FinSet.ofList ["\x7bp,q\x7d", "\x7bp,q\x7d'", "\x7bs\x7d"] ∧
      collidingClasses.minimize = collidingClassesAndMore.minimize) ∧
    NFA.collidingNames.WellFormed ∧ collidingNamesAndMore.WellFormed ∧
      NFA.collidingNames.SameWithinReach collidingNamesAndMore ∧
      NFA.collidingNames.determinize = collidingNamesAndMore.determinize := by
  have hclasses : collidingClasses.reachable = collidingClasses.states := by cbv
  have hnames : NFA.collidingNames.reachable = NFA.collidingNames.states := by cbv
  have hD : collidingClasses.toNFA.SameWithinReach collidingClassesAndMore.toNFA := by
    rw [NFA.sameWithinReach_iff, hclasses]
    decide
  have hA : NFA.collidingNames.SameWithinReach collidingNamesAndMore := by
    rw [NFA.sameWithinReach_iff, hnames]
    decide
  exact ⟨⟨by decide, by decide, hD, by cbv, unreachable_states_invisible.1 _ _ hD⟩, by decide,
    by decide, hA, unreachable_states_invisible.2 _ _ hA⟩

end Automata
