import Automata.CommandLine.Command
import Automata.Proofs.Comparison
import Automata.Proofs.Description
import Automata.Proofs.Determinization
import Automata.Proofs.Minimization
import Automata.Proofs.Renumbering
import Automata.Proofs.SearchOrder
import Automata.Proofs.Views
import Mathlib

/-!
# A canonical form for languages

Minimal automata for one language differ only in the names of their states, and numbering takes the
names away.  The reason is that the number of a state is the place of its least access word, and
which words are least hangs only on which words lead to one state.  In a minimal automaton the
language says when they do.

## What is here

* `DFA.Alike` — words that meet in one automaton meet in the other, and so do words that get stuck.
* `DFA.accessWords` — the least words that lead to the states, in ascending order, and
  `DFA.Alike.numbering_eq` — **states of alike automata that one word leads to have one number.**
* `DFA.Alike.renumber_eq` — so automata that are alike are equal once they are numbered.
* `DFA.minimize_alike` — minimal automata for one language are alike.
* `DFA.minimize_renumber_eq_iff` — **two automata have one canonical form exactly if they have the
  same alphabet and accept the same tapes.**
* `DFA.canonical_form` — hence what the program prints for a description, if it is asked for the
  canonical form, depends on these only.
-/

set_option autoImplicit false

namespace Automata

open Std

/-- The edges of one state ascend by symbol, and those along one symbol by target. -/
theorem Edge.lt_of_compare_eq_lt {e f : Edge} (hsource : e.source = f.source)
    (h : compare e f = .lt) :
    e.symbol < f.symbol ∨ e.symbol = f.symbol ∧ e.target < f.target := by
  rcases compare_eq_lt_iff.1 h with hlt | ⟨_, h⟩
  · exact absurd (hsource ▸ hlt) (lt_irrefl _)
  · exact h

namespace DFA

variable {A B D E : DFA} {q p : State} {v w : List Char}

/-! ## Access words -/

/-- The edges of a state ascend by symbol. -/
theorem graph_ascending (D : DFA) : D.graph.Ascending := by
  intro q
  refine List.pairwise_map.2 (List.Pairwise.imp_of_mem ?_ (D.edges.ascending.filter _))
  intro e f he hf hlt
  obtain ⟨he, hes⟩ := List.mem_filter.1 he
  obtain ⟨hf, hfs⟩ := List.mem_filter.1 hf
  have hsource : e.source = f.source := (of_decide_eq_true hes).trans (of_decide_eq_true hfs).symm
  rcases Edge.lt_of_compare_eq_lt hsource hlt with hlt | ⟨heq, _⟩
  · exact hlt
  · -- there is only one edge for a state and symbol, and it does not come before itself
    rw [D.functional e he f hf hsource heq, ReflOrd.compare_self] at hlt
    cases hlt

theorem walk_graph_iff : D.graph.Walk D.start w q ↔ D.after (some D.start) w = some q :=
  NFA.walk_iff_path.trans after_eq_some_iff.symm

/-- The least words that lead to the reachable states, in the order of discovery. -/
def accessWords (D : DFA) : List (List Char) := (D.graph.discover D.start).map Visit.word

theorem accessWords_ascending (D : DFA) : D.accessWords.Pairwise Precedes :=
  List.pairwise_map.2 (Graph.discover_ascending D.graph_ascending D.start)

/-- A word is an access word exactly if it leads somewhere and no earlier word leads there. -/
theorem mem_accessWords : w ∈ D.accessWords ↔ D.after (some D.start) w ≠ none ∧
    ∀ v, D.after (some D.start) v = D.after (some D.start) w → w = v ∨ Precedes w v := by
  rw [accessWords, List.mem_map]
  refine ⟨?_, fun ⟨hne, hleast⟩ => ?_⟩
  · rintro ⟨u, hu, rfl⟩
    obtain ⟨hwalk, hleast⟩ := (Graph.mem_discover_iff D.graph_ascending).1 hu
    have hafter := walk_graph_iff.1 hwalk
    refine ⟨Option.ne_none_iff_exists'.2 ⟨_, hafter⟩, fun v hv => ?_⟩
    exact hleast v (walk_graph_iff.2 (hv.trans hafter))
  · obtain ⟨q, hq⟩ := Option.ne_none_iff_exists'.1 hne
    refine ⟨⟨w, q⟩, (Graph.mem_discover_iff D.graph_ascending).2 ⟨walk_graph_iff.2 hq, ?_⟩, rfl⟩
    exact fun v hv => hleast v ((walk_graph_iff.1 hv).trans hq.symm)

/-- Every position is the one after an access word. -/
theorem exists_accessWord (h : D.after (some D.start) w = some q) :
    ∃ (i : Nat) (u : List Char),
      D.accessWords[i]? = some u ∧ D.after (some D.start) u = some q := by
  obtain ⟨u, hu, rfl, _⟩ := Graph.exists_visit_le D.graph_ascending (walk_graph_iff.2 h)
  obtain ⟨i, hi⟩ := List.getElem?_of_mem (List.mem_map_of_mem (f := Visit.word) hu)
  exact ⟨i, u.word, hi, walk_graph_iff.1 (Graph.walk_of_mem_discover hu)⟩

/-- **The number of a state is the place of its access word.** -/
theorem numbering_of_accessWord {i : Nat} (hi : D.accessWords[i]? = some w)
    (hw : D.after (some D.start) w = some q) : D.numbering.rename q = toString i := by
  rw [accessWords, List.getElem?_map, Option.map_eq_some_iff] at hi
  obtain ⟨u, hu, rfl⟩ := hi
  have hnode := walk_graph_iff.1 (Graph.walk_of_mem_discover (List.mem_of_getElem? hu))
  rw [hnode, Option.some_inj] at hw
  have hfound : (D.graph.nodesFrom D.start)[i]? = some q := by
    rw [Graph.nodesFrom, List.getElem?_map, hu, Option.map_some, hw]
  refine NFA.rename_numbering ?_
  rw [NFA.numberingOrder, List.getElem?_append_left (List.getElem?_eq_some_iff.1 hfound).1, hfound]

/-! ## Alike automata -/

/-- What words do to two automata is the same as far as it can be seen without names. -/
structure Alike (D E : DFA) : Prop where
  /-- The same words get stuck. -/
  stuck_iff : ∀ w, D.after (some D.start) w = none ↔ E.after (some E.start) w = none
  /-- The same words lead to one position. -/
  meet_iff : ∀ v w, D.after (some D.start) v = D.after (some D.start) w ↔
    E.after (some E.start) v = E.after (some E.start) w

namespace Alike

theorem symm (h : Alike D E) : Alike E D :=
  ⟨fun w => (h.stuck_iff w).symm, fun v w => (h.meet_iff v w).symm⟩

/-- A word that leads somewhere in one automaton does so in the other. -/
theorem exists_after (h : Alike D E) (hw : D.after (some D.start) w = some q) :
    ∃ p, E.after (some E.start) w = some p := by
  refine Option.ne_none_iff_exists'.1 fun hnone => ?_
  rw [(h.stuck_iff w).2 hnone] at hw
  cases hw

/-- Alike automata have the same access words. -/
theorem accessWords_eq (h : Alike D E) : D.accessWords = E.accessWords := by
  refine D.accessWords_ascending.eq_of_mem_iff E.accessWords_ascending fun w => ?_
  rw [mem_accessWords, mem_accessWords, ne_eq, ne_eq, h.stuck_iff w]
  simp only [h.meet_iff]

/-- **States of alike automata that one word leads to have one number.** -/
theorem numbering_eq (h : Alike D E) (hq : D.after (some D.start) w = some q)
    (hp : E.after (some E.start) w = some p) : D.numbering.rename q = E.numbering.rename p := by
  obtain ⟨i, u, hi, hu⟩ := exists_accessWord hq
  have hmeet : E.after (some E.start) u = some p :=
    ((h.meet_iff u w).1 (hu.trans hq.symm)).trans hp
  rw [numbering_of_accessWord hi hu, numbering_of_accessWord (h.accessWords_eq ▸ hi) hmeet]

end Alike

/-- Every state is the position after some word. -/
def Trim (D : DFA) : Prop := ∀ q, q ∈ D.states → ∃ w, D.after (some D.start) w = some q

namespace Alike

variable {n : State}

/-- A numbered state of an automaton without spare states is one of every automaton alike. -/
theorem mem_states (h : Alike D E) (hE : E.WellFormed) (htrim : D.Trim)
    (hn : n ∈ D.states.map D.numbering.rename) : n ∈ E.states.map E.numbering.rename := by
  obtain ⟨q, hq, rfl⟩ := FinSet.mem_map.1 hn
  obtain ⟨w, hw⟩ := htrim q hq
  obtain ⟨p, hp⟩ := h.exists_after hw
  exact FinSet.mem_map.2
    ⟨p, (after_eq_some_iff.1 hp).mem_states hE hE.start_mem, (h.numbering_eq hw hp).symm⟩

theorem mem_finals (h : Alike D E) (hD : D.WellFormed) (htrim : D.Trim)
    (hlang : ∀ w, D.accepts w = E.accepts w) (hn : n ∈ D.finals.map D.numbering.rename) :
    n ∈ E.finals.map E.numbering.rename := by
  obtain ⟨q, hq, rfl⟩ := FinSet.mem_map.1 hn
  obtain ⟨w, hw⟩ := htrim q (hD.finals_subset q hq)
  obtain ⟨p, hp⟩ := h.exists_after hw
  have haccept := hlang w
  rw [accepts_eq, accepts_eq, future, future, hw, hp, acceptsAt_some, acceptsAt_some,
    NFA.isFinal_iff.2 hq] at haccept
  exact FinSet.mem_map.2 ⟨p, NFA.isFinal_iff.1 haccept.symm, (h.numbering_eq hw hp).symm⟩

theorem mem_edges (h : Alike D E) (hD : D.WellFormed) (htrim : D.Trim) {e : Edge}
    (he : e ∈ D.edges.mapStates D.numbering.rename) :
    e ∈ E.edges.mapStates E.numbering.rename := by
  obtain ⟨⟨q, a, q'⟩, hd, rfl⟩ := FinSet.mem_map.1 he
  obtain ⟨w, hw⟩ := htrim q (hD.source_mem _ hd)
  have hw' : D.after (some D.start) (w ++ [a]) = some q' := by
    rw [after_append, hw]
    exact next?_eq_some_iff.2 hd
  obtain ⟨p, hp⟩ := h.exists_after hw
  obtain ⟨p', hp'⟩ := h.exists_after hw'
  have hedge : (⟨p, a, p'⟩ : Edge) ∈ E.edges := by
    rw [after_append, hp] at hp'
    exact next?_eq_some_iff.1 hp'
  refine FinSet.mem_map.2 ⟨_, hedge, ?_⟩
  rw [Edge.map, Edge.map, h.numbering_eq hw hp, h.numbering_eq hw' hp']

/-- **Automata that are alike are equal once they are numbered**, provided that they have the same
alphabet, accept the same tapes and have no states to spare. -/
theorem renumber_eq (h : Alike D E) (hD : D.WellFormed) (hE : E.WellFormed) (htrim : D.Trim)
    (htrim' : E.Trim) (halphabet : D.alphabet = E.alphabet)
    (hlang : ∀ w, D.accepts w = E.accepts w) : D.renumber = E.renumber := by
  refine toNFA_injective ?_
  rw [renumber, renumber, toNFA_rename hD (NFA.injOn_numbering hD),
    toNFA_rename hE (NFA.injOn_numbering hE), NFA.rename, NFA.rename, NFA.mk.injEq]
  refine ⟨FinSet.ext fun n => ?_, halphabet, ?_, FinSet.ext fun n => ?_, FinSet.ext fun e => ?_⟩
  · exact ⟨h.mem_states hE htrim, h.symm.mem_states hD htrim'⟩
  · exact h.numbering_eq (after_nil _) (after_nil _)
  · exact ⟨h.mem_finals hD htrim hlang, h.symm.mem_finals hE htrim' fun w => (hlang w).symm⟩
  · exact ⟨h.mem_edges hD htrim, h.symm.mem_edges hE htrim'⟩

end Alike

/-! ## Minimal automata -/

/-- The minimal automaton has no state to spare. -/
theorem trim_minimize (hD : D.WellFormed) : D.minimize.Trim := by
  intro n hn
  cases h : D.className (some D.start) with
  | none =>
    rw [minimize_of_className_none h] at hn ⊢
    exact ⟨[], congrArg some (FinSet.mem_singleton.1 hn).symm⟩
  | some start =>
    rw [minimize_of_className h] at hn ⊢
    obtain ⟨x, hx, hxn⟩ := exists_className_eq (FinSet.mem_ofList.1 hn)
    cases x with
    | none =>
      rw [className_none] at hxn
      cases hxn
    | some q =>
      obtain ⟨w, hw⟩ := mem_reachable_iff_after.1 (hx q rfl)
      exact ⟨w, by rw [after_merged hD h, hw, hxn]⟩

/-- The minimal automaton gets stuck where nothing can be accepted any more. -/
theorem minimize_stuck_iff (hD : D.WellFormed) :
    D.minimize.after (some D.minimize.start) w = none ↔
      w ≠ [] ∧ ∀ u, D.accepts (w ++ u) = false := by
  by_cases hw : w = []
  · subst hw
    simp
  · rw [minimize_after hD hw, className_eq_none_iff hD (D.reached_start.after w)]
    simp only [accepts_eq, future_append, ne_eq, hw, not_false_eq_true, true_and]

/-- Words meet in the minimal automaton if no rest of a tape tells them apart, unless one of them
is stuck and the other is not. -/
theorem minimize_meet_iff (hD : D.WellFormed) :
    D.minimize.after (some D.minimize.start) v = D.minimize.after (some D.minimize.start) w ↔
      (∀ u, D.accepts (v ++ u) = D.accepts (w ++ u)) ∧
        (D.minimize.after (some D.minimize.start) v = none ↔
          D.minimize.after (some D.minimize.start) w = none) := by
  cases h : D.className (some D.start) with
  | some n =>
    have hname : ∀ w, D.minimize.after (some D.minimize.start) w
        = D.className (D.after (some D.start) w) := fun w => by
      rw [minimize_of_className h, after_merged hD h]
    rw [hname, hname, className_eq_iff hD (D.reached_start.after v) (D.reached_start.after w)]
    simp only [accepts_eq, future_append]
    -- in this case words that no rest tells apart are stuck together
    refine (and_iff_left_of_imp fun hsame => ?_).symm
    rw [className_eq_none_iff hD (D.reached_start.after v),
      className_eq_none_iff hD (D.reached_start.after w)]
    simp only [hsame]
  | none =>
    have hempty : ∀ w, D.accepts w = false := fun w => by
      rw [accepts_eq, (className_eq_none_iff hD D.reached_start).1 h]
    have hstart : ∀ w, D.minimize.after (some D.minimize.start) w
        = if w = [] then some D.minimize.start else none := fun w => by
      split
      · rename_i hw
        rw [hw, after_nil]
      · rename_i hw
        exact (minimize_stuck_iff hD).2 ⟨hw, fun u => hempty _⟩
    simp only [hempty, implies_true, true_and, hstart]
    split <;> split <;> simp

/-- Minimal automata for one language are alike. -/
theorem minimize_alike (hA : A.WellFormed) (hB : B.WellFormed)
    (hlang : ∀ w, A.accepts w = B.accepts w) : Alike A.minimize B.minimize := by
  have hstuck : ∀ w, A.minimize.after (some A.minimize.start) w = none ↔
      B.minimize.after (some B.minimize.start) w = none := fun w => by
    rw [minimize_stuck_iff hA, minimize_stuck_iff hB]
    simp only [hlang]
  refine ⟨hstuck, fun v w => ?_⟩
  rw [minimize_meet_iff hA, minimize_meet_iff hB, hstuck v, hstuck w]
  simp only [hlang]

/-- Minimization keeps the alphabet. -/
theorem alphabet_minimize (D : DFA) : D.minimize.alphabet = D.alphabet := by
  cases h : D.className (some D.start) with
  | none =>
    rw [minimize_of_className_none h]
    rfl
  | some n =>
    rw [minimize_of_className h]
    rfl

/-- **Two automata have one canonical form exactly if they have the same alphabet and accept the
same tapes.** -/
theorem minimize_renumber_eq_iff (hA : A.WellFormed) (hB : B.WellFormed) :
    A.minimize.renumber = B.minimize.renumber ↔
      A.alphabet = B.alphabet ∧ ∀ w, A.accepts w = B.accepts w := by
  refine ⟨fun h => ⟨?_, fun w => ?_⟩, fun ⟨halphabet, hlang⟩ => ?_⟩
  · calc A.alphabet = A.minimize.renumber.alphabet := (alphabet_minimize A).symm
      _ = B.minimize.renumber.alphabet := by rw [h]
      _ = B.alphabet := alphabet_minimize B
  · calc A.accepts w = A.minimize.renumber.accepts w := by
          rw [accepts_renumber (wellFormed_minimize hA), minimize_accepts_eq hA]
      _ = B.minimize.renumber.accepts w := by rw [h]
      _ = B.accepts w := by
          rw [accepts_renumber (wellFormed_minimize hB), minimize_accepts_eq hB]
  · refine (minimize_alike hA hB hlang).renumber_eq (wellFormed_minimize hA)
      (wellFormed_minimize hB) (trim_minimize hA) (trim_minimize hB) ?_ fun w => ?_
    · rw [alphabet_minimize, alphabet_minimize, halphabet]
    · rw [minimize_accepts_eq hA, minimize_accepts_eq hB, hlang]

end DFA

/-! ## What is printed for a description -/

namespace Command

variable {input : Except ReadFailure String} {r : Recognizer}

/-- The automaton that a text describes is well-formed. -/
theorem wellFormed_recognizerOf (h : recognizerOf input = .ok r) : r.toNFA.WellFormed := by
  cases input with
  | error failure => cases h
  | ok text =>
    cases hd : Description.ofText text with
    | error e =>
      simp only [recognizerOf, textOf, Except.mapError, bind, Except.bind, hd] at h
      cases h
    | ok d =>
      simp only [recognizerOf, textOf, Except.mapError, bind, Except.bind, hd] at h
      exact Description.wellFormed_toNFA (.ofText hd) (Description.toNFA_of_toRecognizer h)

/-- What is printed if the canonical form is asked for. -/
theorem run_determinize (h : recognizerOf input = .ok r) (file : Option String) :
    (determinize true true file).run input
      = .success ("" ++ r.toDFA.minimize.renumber.render ++ "\n") := by
  rw [run, perform, h]
  rfl

end Command

/-- **Minimization followed by numbering is a canonical form.**  It tells automata apart exactly by
their alphabets and their languages.  Hence what is printed for a description depends on these
only. -/
theorem DFA.canonical_form :
    (∀ A B : DFA, A.WellFormed → B.WellFormed →
      (A.minimize.renumber = B.minimize.renumber ↔
        A.alphabet = B.alphabet ∧ ∀ w, A.accepts w = B.accepts w)) ∧
    ∀ (input input' : Except ReadFailure String) (file file' : Option String) (r r' : Recognizer),
      Command.recognizerOf input = .ok r → Command.recognizerOf input' = .ok r' →
      r.toNFA.alphabet = r'.toNFA.alphabet → (∀ w, r.accepts w = r'.accepts w) →
      (Command.determinize true true file).run input
        = (Command.determinize true true file').run input' := by
  refine ⟨fun A B => minimize_renumber_eq_iff, ?_⟩
  intro input input' file file' r r' hr hr' halphabet hlang
  have hwell := Command.wellFormed_recognizerOf hr
  have hwell' := Command.wellFormed_recognizerOf hr'
  have hform : r.toDFA.minimize.renumber = r'.toDFA.minimize.renumber := by
    refine (minimize_renumber_eq_iff (Recognizer.wellFormed_toDFA hwell)
      (Recognizer.wellFormed_toDFA hwell')).2 ⟨?_, fun w => ?_⟩
    · rw [Recognizer.alphabet_toDFA, Recognizer.alphabet_toDFA, halphabet]
    · rw [Recognizer.accepts_toDFA hwell, Recognizer.accepts_toDFA hwell', hlang]
  rw [Command.run_determinize hr, Command.run_determinize hr', hform]

/-- Takes an odd number of steps, every other one along `a` only. -/
def oddSteps : DFA :=
  let moves := FunctionalRelation.ofList [⟨"p", 'a', "q"⟩, ⟨"p", 'b', "q"⟩, ⟨"q", 'a', "p"⟩]
  { states := FinSet.ofList ["p", "q"]
    alphabet := FinSet.ofList ['a', 'b']
    start := "p"
    finals := FinSet.ofList ["q"]
    edges := moves.edges
    functional := moves.functional }

/-- Accepts the same tapes, but has a choice between a state that goes on and one that does not. -/
def oddStepsWithChoice : NFA where
  states := FinSet.ofList ["x", "y", "z"]
  alphabet := FinSet.ofList ['a', 'b']
  start := "x"
  finals := FinSet.ofList ["y", "z"]
  edges := FinSet.ofList [⟨"x", 'a', "y"⟩, ⟨"x", 'a', "z"⟩, ⟨"x", 'b', "y"⟩, ⟨"y", 'a', "x"⟩]

theorem oddSteps_accepts (w : List Char) :
    oddSteps.accepts w = oddStepsWithChoice.determinize.accepts w :=
  (DFA.leastDifference?_eq_none_iff (by decide) (NFA.wellFormed_determinize _)).1 (by cbv) w

theorem oddSteps_canonical_form :
    oddSteps.minimize.renumber = oddStepsWithChoice.determinize.minimize.renumber ∧
    (Command.determinize true true none).run (.ok "-> p -> a q | b q\n() q -> a p")
      = (Command.determinize true true (some "x")).run
          (.ok "->x -> a y | az | b y\n() y -> a x\n()z") := by
  refine ⟨?_, ?_⟩
  · exact (DFA.canonical_form.1 oddSteps oddStepsWithChoice.determinize (by decide)
      (NFA.wellFormed_determinize _)).2 ⟨rfl, oddSteps_accepts⟩
  · refine DFA.canonical_form.2 _ _ none (some "x") (.deterministic oddSteps)
      (.nondeterministic oddStepsWithChoice) (by cbv) (by cbv) rfl fun w => ?_
    exact (oddSteps_accepts w).trans (NFA.accepts_determinize (by decide) w)

end Automata
