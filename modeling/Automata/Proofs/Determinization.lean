import Automata.NFA.Determinization
import Automata.Proofs.Acceptance
import Automata.Proofs.Reachability
import Automata.Proofs.Relations

/-!
# The subset construction keeps the language

The deterministic automaton knows a set of active states only by its name.  It follows the
frontier of the automaton it was made from because different sets have different names, whatever
the states are called, and because every set that a run can meet was discovered and named.

## What is here

* `NFA.isEmpty_of_mem_subsets` and `NFA.step_mem_subsets` — the empty set is not discovered, and
  what can be active after a discovered subset is.
* `NFA.naming_namedSubsets` — the names of the discovered subsets identify them.
* `NFA.subsetName` — the name of a set; the empty set has none, as a stuck run has no position.
* `NFA.determinize_after` — **the position of the deterministic automaton is the name of the
  frontier.**
* `NFA.determinize_keeps_language` — it accepts the same tapes over the same alphabet.
-/

set_option autoImplicit false

namespace Automata

namespace NFA

variable {A : NFA}

/-! ## The discovered subsets -/

theorem mem_subsetGraph_arcs {s t : FinSet State} {a : Char} :
    (a, t) ∈ A.subsetGraph.arcs s ↔ a ∈ A.alphabet ∧ t.isEmpty = false ∧ t = A.step s a := by
  rw [subsetGraph, List.mem_filterMap]
  refine ⟨?_, ?_⟩
  · rintro ⟨b, hb, hbt⟩
    by_cases he : (A.step s b).isEmpty = true
    · simp [he] at hbt
    · simp only [he, Bool.false_eq_true, if_false, Option.some.injEq, Prod.mk.injEq] at hbt
      obtain ⟨rfl, rfl⟩ := hbt
      exact ⟨hb, Bool.eq_false_iff.2 he, rfl⟩
  · rintro ⟨ha, he, rfl⟩
    exact ⟨a, ha, by simp only [he, Bool.false_eq_true, if_false]⟩

theorem isEmpty_singleton (q : State) : (FinSet.singleton q).isEmpty = false := rfl

theorem start_mem_subsets : FinSet.singleton A.start ∈ A.subsets := Graph.start_mem_nodesFrom _

theorem nodup_subsets : A.subsets.Nodup := Graph.nodup_nodesFrom _

/-- The empty set is not discovered. -/
theorem isEmpty_of_mem_subsets {s : FinSet State} (hs : s ∈ A.subsets) : s.isEmpty = false := by
  obtain ⟨w, hw⟩ := Graph.mem_nodesFrom_iff.1 hs
  refine hw.closed (P := fun t => t.isEmpty = false) (fun t _ arc harc => ?_) (isEmpty_singleton _)
  exact (mem_subsetGraph_arcs.1 harc).2.1

theorem isEmpty_step_of_isEmpty {s : FinSet State} (hs : s.isEmpty = true) (a : Char) :
    (A.step s a).isEmpty = true := frontier_of_isEmpty hs [a]

/-- A symbol that leads somewhere is in the alphabet. -/
theorem mem_alphabet_of_step (hA : A.WellFormed) {s : FinSet State} {a : Char}
    (h : (A.step s a).isEmpty = false) : a ∈ A.alphabet := by
  by_contra ha
  refine Bool.eq_false_iff.1 h (FinSet.isEmpty_iff.2 fun p hp => ha ?_)
  obtain ⟨q, _, he⟩ := mem_step.1 hp
  exact hA.symbol_mem _ he

/-- What can be active after a discovered subset is discovered as well. -/
theorem step_mem_subsets (hA : A.WellFormed) {s : FinSet State} (hs : s ∈ A.subsets) {a : Char}
    (h : (A.step s a).isEmpty = false) : A.step s a ∈ A.subsets := by
  obtain ⟨w, hw⟩ := Graph.mem_nodesFrom_iff.1 hs
  have harc := mem_subsetGraph_arcs.2 ⟨mem_alphabet_of_step hA h, h, rfl⟩
  exact Graph.mem_nodesFrom_iff.2 ⟨w ++ [a], hw.append (.single harc)⟩

/-! ## Their names -/

/-- Different subsets have different names. -/
theorem naming_namedSubsets (A : NFA) : Naming A.namedSubsets :=
  naming_zip_supply nodup_subsets (List.length_map _).symm

/-- The things that are named are the discovered subsets. -/
theorem map_fst_namedSubsets (A : NFA) : A.namedSubsets.map Prod.fst = A.subsets := by
  refine List.map_fst_zip (Nat.le_of_eq ?_)
  rw [length_supply, List.length_map]

/-- The name of a discovered subset. -/
def subsetName (A : NFA) (s : FinSet State) : Option State := A.namedSubsets.lookup s

theorem subsetName_eq_some_iff {s : FinSet State} {q : State} :
    A.subsetName s = some q ↔ (s, q) ∈ A.namedSubsets :=
  A.naming_namedSubsets.lookup_eq_some_iff

/-- A name stands for one subset only. -/
theorem subsetName_inj {s t : FinSet State} {q : State} (hs : A.subsetName s = some q)
    (ht : A.subsetName t = some q) : s = t :=
  A.naming_namedSubsets.eq_of_name (subsetName_eq_some_iff.1 hs) (subsetName_eq_some_iff.1 ht)

theorem mem_subsets_of_subsetName {s : FinSet State} {q : State} (h : A.subsetName s = some q) :
    s ∈ A.subsets := by
  rw [← map_fst_namedSubsets]
  exact List.mem_map.2 ⟨_, subsetName_eq_some_iff.1 h, rfl⟩

theorem exists_subsetName {s : FinSet State} (hs : s ∈ A.subsets) :
    ∃ q, A.subsetName s = some q := by
  rw [← map_fst_namedSubsets] at hs
  obtain ⟨⟨t, q⟩, hm, rfl⟩ := List.mem_map.1 hs
  exact ⟨q, subsetName_eq_some_iff.2 hm⟩

theorem subsetName_of_isEmpty {s : FinSet State} (hs : s.isEmpty = true) :
    A.subsetName s = none := by
  cases h : A.subsetName s with
  | none => rfl
  | some q =>
    rw [isEmpty_of_mem_subsets (mem_subsets_of_subsetName h)] at hs
    cases hs

/-- The start keeps its canonical name, since no name is taken before it. -/
theorem subsetName_start (A : NFA) :
    A.subsetName (FinSet.singleton A.start) = some A.determinize.start := by
  obtain ⟨rest, hrest⟩ :=
    Graph.nodesFrom_eq_cons (g := A.subsetGraph) (FinSet.singleton A.start)
  have hsubsets : A.subsets = FinSet.singleton A.start :: rest := hrest
  rw [subsetName_eq_some_iff, namedSubsets, hsubsets, List.map_cons, supply_nil_cons,
    List.zip_cons_cons]
  exact List.mem_cons_self

/-! ## The moves between names -/

theorem mem_subsetEdges {q p : State} {a : Char} :
    (⟨q, a, p⟩ : Edge) ∈ A.subsetEdges A.namedSubsets ↔
      ∃ s, A.subsetName s = some q ∧ a ∈ A.alphabet ∧ A.subsetName (A.step s a) = some p := by
  simp only [subsetEdges, List.mem_flatMap, List.mem_filterMap, Option.map_eq_some_iff,
    Edge.mk.injEq]
  refine ⟨?_, ?_⟩
  · rintro ⟨⟨s, n⟩, hs, ⟨b, t⟩, harc, m, hm, rfl, rfl, rfl⟩
    obtain ⟨ha, _, rfl⟩ := mem_subsetGraph_arcs.1 harc
    exact ⟨s, subsetName_eq_some_iff.2 hs, ha, hm⟩
  · rintro ⟨s, hs, ha, hp⟩
    have hne := isEmpty_of_mem_subsets (mem_subsets_of_subsetName hp)
    exact ⟨(s, q), subsetName_eq_some_iff.1 hs, (a, A.step s a),
      mem_subsetGraph_arcs.2 ⟨ha, hne, rfl⟩, p, hp, rfl, rfl, rfl⟩

/-- The moves do not compete, because a name stands for one subset only. -/
theorem mem_determinize_edges {q p : State} {a : Char} :
    (⟨q, a, p⟩ : Edge) ∈ A.determinize.edges ↔
      ∃ s, A.subsetName s = some q ∧ a ∈ A.alphabet ∧ A.subsetName (A.step s a) = some p := by
  rw [← mem_subsetEdges]
  refine FunctionalRelation.mem_ofList_iff ?_
  rintro ⟨q, a, p⟩ he ⟨q', a', p'⟩ he' rfl rfl
  obtain ⟨s, hs, _, hp⟩ := mem_subsetEdges.1 he
  obtain ⟨s', hs', _, hp'⟩ := mem_subsetEdges.1 he'
  rw [subsetName_inj hs hs', hp'] at hp
  rw [Option.some_inj.1 hp]

/-- The sets that a run can meet. -/
def Met (A : NFA) (s : FinSet State) : Prop := s.isEmpty = true ∨ s ∈ A.subsets

theorem Met.step (hA : A.WellFormed) {s : FinSet State} (hs : A.Met s) (a : Char) :
    A.Met (A.step s a) := by
  cases he : (A.step s a).isEmpty with
  | true => exact .inl he
  | false =>
    rcases hs with hs | hs
    · rw [isEmpty_step_of_isEmpty hs a] at he
      cases he
    · exact .inr (step_mem_subsets hA hs he)

/-- **A move between names is a step between sets.** -/
theorem move_subsetName (hA : A.WellFormed) {s : FinSet State} (hs : A.Met s) (a : Char) :
    A.determinize.move (A.subsetName s) a = A.subsetName (A.step s a) := by
  rcases hs with hs | hs
  · rw [subsetName_of_isEmpty hs, subsetName_of_isEmpty (isEmpty_step_of_isEmpty hs a),
      DFA.move_none]
  · obtain ⟨q, hq⟩ := exists_subsetName hs
    rw [hq, DFA.move_some]
    refine Option.ext fun p => ?_
    rw [DFA.next?_eq_some_iff, mem_determinize_edges]
    refine ⟨?_, fun hp => ?_⟩
    · rintro ⟨t, ht, _, hp⟩
      exact subsetName_inj hq ht ▸ hp
    · have hne := isEmpty_of_mem_subsets (mem_subsets_of_subsetName hp)
      exact ⟨s, hq, mem_alphabet_of_step hA hne, hp⟩

/-- **The position of the deterministic automaton is the name of the frontier.** -/
theorem determinize_after (hA : A.WellFormed) (w : List Char) :
    A.determinize.after (some A.determinize.start) w
      = A.subsetName (A.frontier (FinSet.singleton A.start) w) := by
  rw [← subsetName_start]
  exact DFA.after_of_simulation (P := A.Met) (fun s hs a => move_subsetName hA hs a)
    (fun s hs a => hs.step hA a) (.inr start_mem_subsets) w

theorem met_frontier (hA : A.WellFormed) {s : FinSet State} (hs : A.Met s) (w : List Char) :
    A.Met (A.frontier s w) := by
  induction w generalizing s with
  | nil => exact hs
  | cons a w ih => exact ih (hs.step hA a)

theorem mem_determinize_finals {q : State} :
    q ∈ A.determinize.finals ↔ ∃ s, A.subsetName s = some q ∧ s.meets A.finals = true := by
  simp only [determinize, FinSet.mem_ofList, List.mem_map, List.mem_filter,
    subsetName_eq_some_iff]
  refine ⟨?_, ?_⟩
  · rintro ⟨⟨s, _⟩, ⟨hs, hm⟩, rfl⟩
    exact ⟨s, hs, hm⟩
  · rintro ⟨s, hs, hm⟩
    exact ⟨(s, q), ⟨hs, hm⟩, rfl⟩

/-- A name is final exactly if its set holds a final state. -/
theorem acceptsAt_subsetName {s : FinSet State} (hs : A.Met s) :
    A.determinize.acceptsAt (A.subsetName s) = s.meets A.finals := by
  rcases hs with hs | hs
  · rw [subsetName_of_isEmpty hs, DFA.acceptsAt_none, meets_of_isEmpty hs]
  · obtain ⟨q, hq⟩ := exists_subsetName hs
    rw [hq, DFA.acceptsAt_some, Bool.eq_iff_iff, isFinal_iff, mem_determinize_finals]
    refine ⟨?_, fun hm => ?_⟩
    · rintro ⟨t, ht, hm⟩
      exact subsetName_inj hq ht ▸ hm
    · exact ⟨s, hq, hm⟩

theorem accepts_determinize (hA : A.WellFormed) (tape : List Char) :
    A.determinize.accepts tape = A.accepts tape := by
  rw [DFA.accepts_eq, DFA.future, determinize_after hA,
    acceptsAt_subsetName (met_frontier hA (.inr start_mem_subsets) tape), accepts_eq_meets]

/-- The deterministic automaton fits together even if the automaton it was made from does not. -/
theorem wellFormed_determinize (A : NFA) : A.determinize.WellFormed := by
  have hstate : ∀ {s q}, A.subsetName s = some q → q ∈ A.determinize.states := fun hq =>
    FinSet.mem_ofList.2 (List.mem_map.2 ⟨_, subsetName_eq_some_iff.1 hq, rfl⟩)
  refine wellFormed_iff.2 ⟨hstate (subsetName_start A), fun q hq => ?_, ?_⟩
  · obtain ⟨s, hs, _⟩ := mem_determinize_finals.1 hq
    exact hstate hs
  · rintro ⟨q, a, p⟩ he
    obtain ⟨s, hs, ha, hp⟩ := mem_determinize_edges.1 he
    exact ⟨hstate hs, ha, hstate hp⟩

/-- **The subset construction keeps the language**, whatever the states are called, and the
alphabet. -/
theorem determinize_keeps_language (hA : A.WellFormed) :
    A.determinize.alphabet = A.alphabet ∧
      ∀ tape, A.determinize.accepts tape = A.accepts tape :=
  ⟨rfl, accepts_determinize hA⟩

/-- The subset of `1` and `2` has the same canonical name as the one of `1,2`. -/
def collidingNames : NFA where
  states := FinSet.ofList ["", "1", "2", "1,2"]
  alphabet := FinSet.ofList ['a', 'b']
  start := ""
  finals := FinSet.ofList ["1,2"]
  edges := FinSet.ofList [⟨"", 'a', "1"⟩, ⟨"", 'a', "2"⟩, ⟨"", 'b', "1,2"⟩]

theorem collidingNames_determinize : collidingNames.WellFormed ∧
    collidingNames.determinize.alphabet = collidingNames.alphabet ∧
    ∀ tape, collidingNames.determinize.accepts tape = collidingNames.accepts tape :=
  ⟨by decide, determinize_keeps_language (by decide)⟩

end NFA

end Automata
