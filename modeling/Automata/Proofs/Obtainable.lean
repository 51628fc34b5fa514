import Automata.Grammar.Conversion
import Automata.Proofs.Description
import Automata.Proofs.Determinization
import Automata.Proofs.Minimization
import Automata.Proofs.Random
import Automata.Proofs.Renumbering

/-!
# Automata that can be obtained

Nobody builds an automaton by hand.  Automata are described, drawn at random, read off a grammar,
or made from other automata, and all of these keep the promise that the parts fit together.

## What is here

* `Description.Obtainable`, `NFA.Obtainable`, `DFA.Obtainable` — what the operations of the library
  yield, in any order and any number of them.
* `NFA.Obtainable.wellFormed`, `DFA.Obtainable.wellFormed` — **whatever can be obtained is
  well-formed.**
* `NFA.Obtainable.acceptance_agrees` — so all three ways to decide acceptance agree on it.
* `Recognizer.Obtainable`, `Moore.Obtainable` — automata of either kind, and Moore machines, whose
  automata can be obtained as well; `wellFormed_of_obtainable` says that all of them fit together.
-/

set_option autoImplicit false

namespace Automata

/-- What can be described: statements are made one by one, or read from a text first. -/
inductive Description.Obtainable : Description → Prop where
  /-- Nothing is said yet. -/
  | empty : Obtainable Description.empty
  /-- A text is read. -/
  | ofText {text : String} {d : Description} : Description.ofText text = .ok d → Obtainable d
  /-- One more statement is made. -/
  | add {d : Description} (s : Statement) : Obtainable d → Obtainable (d.add s)

mutual

/-- The nondeterministic automata that can be obtained. -/
inductive NFA.Obtainable : NFA → Prop where
  /-- The automaton that is described. -/
  | described {d : Description} {A : NFA} : d.Obtainable → d.toNFA = .ok A → NFA.Obtainable A
  /-- A description that does not ask for a kind of automaton, taken as a nondeterministic one. -/
  | recognizer {d : Description} {r : Recognizer} :
      d.Obtainable → d.toRecognizer = .ok r → NFA.Obtainable r.toNFA
  /-- The automaton of a grammar. -/
  | grammar {g : Grammar} {table : SymbolTable} {A : NFA} :
      g.toNFA table = .ok A → NFA.Obtainable A
  /-- A random automaton, from any source of numbers. -/
  | random {σ : Type} [Source σ] (size symbols : Nat) (density : Float) (s : σ) :
      NFA.Obtainable ((randomNFA size symbols density).run s).1
  /-- A deterministic automaton taken as a nondeterministic one. -/
  | deterministic {D : DFA} : DFA.Obtainable D → NFA.Obtainable D.toNFA
  /-- An automaton with its states numbered. -/
  | renumber {A : NFA} : NFA.Obtainable A → NFA.Obtainable A.renumber

/-- The deterministic automata that can be obtained. -/
inductive DFA.Obtainable : DFA → Prop where
  /-- The automaton that is described. -/
  | described {d : Description} {D : DFA} : d.Obtainable → d.toDFA = .ok D → DFA.Obtainable D
  /-- A description that does not ask for a kind of automaton, taken as a deterministic one. -/
  | recognizer {d : Description} {r : Recognizer} :
      d.Obtainable → d.toRecognizer = .ok r → DFA.Obtainable r.toDFA
  /-- The automaton of a Moore machine. -/
  | moore {d : Description} {outputs : List (State × Char)} {m : Moore} :
      d.Obtainable → d.toMoore outputs = .ok m → DFA.Obtainable m.automaton
  /-- A random automaton, from any source of numbers. -/
  | random {σ : Type} [Source σ] (size symbols : Nat) (density : Float) (s : σ) :
      DFA.Obtainable ((randomDFA size symbols density).run s).1
  /-- The result of the subset construction. -/
  | determinize {A : NFA} : NFA.Obtainable A → DFA.Obtainable A.determinize
  /-- The result of minimization. -/
  | minimize {D : DFA} : DFA.Obtainable D → DFA.Obtainable D.minimize
  /-- An automaton with its states numbered. -/
  | renumber {D : DFA} : DFA.Obtainable D → DFA.Obtainable D.renumber

end

/-- Any number of statements can be made. -/
theorem Description.Obtainable.addAll {d : Description} (h : d.Obtainable)
    (statements : List Statement) : (d.addAll statements).Obtainable := by
  induction statements generalizing d with
  | nil => exact h
  | cons s statements ih => exact ih (.add s h)

theorem Description.Obtainable.closed {d : Description} (h : d.Obtainable) : d.Closed := by
  induction h with
  | empty => exact .empty
  | ofText hok => exact .ofText hok
  | add s _ ih => exact ih.add s

/-! ## Everything is well-formed -/

/-- The automaton of a grammar is described by statements about its rules. -/
theorem Grammar.exists_statements {g : Grammar} {table : SymbolTable} {A : NFA}
    (hok : g.toNFA table = .ok A) :
    ∃ statements, (Description.empty.addAll statements).toNFA = .ok A := by
  rw [Grammar.toNFA] at hok
  simp only [bind, Except.bind] at hok
  split at hok
  · cases hok
  · split at hok
    · cases hok
    · split at hok
      · cases hok
      · exact ⟨_, hok⟩

mutual

theorem NFA.Obtainable.wellFormed {A : NFA} (h : A.Obtainable) : A.WellFormed :=
  match h with
  | .described hd hok => Description.wellFormed_toNFA hd.closed hok
  | .recognizer hd hok =>
    Description.wellFormed_toNFA hd.closed (Description.toNFA_of_toRecognizer hok)
  | .grammar hok =>
    have ⟨statements, hA⟩ := Grammar.exists_statements hok
    Description.wellFormed_toNFA (Description.Closed.empty.addAll statements) hA
  | @NFA.Obtainable.random _ _ size symbols density s => wellFormed_randomNFA size symbols density s
  | .deterministic hD => hD.wellFormed
  | .renumber hA => NFA.wellFormed_rename hA.wellFormed _

theorem DFA.Obtainable.wellFormed {D : DFA} (h : D.Obtainable) : D.WellFormed :=
  match h with
  | .described hd hok => Description.wellFormed_toDFA hd.closed hok
  | .recognizer (r := .deterministic D) hd hok =>
    Description.wellFormed_toNFA hd.closed (Description.toNFA_of_toRecognizer hok)
  | .recognizer (r := .nondeterministic A) _ _ => NFA.wellFormed_determinize A
  | .moore hd hok => Description.wellFormed_toDFA hd.closed (Description.toDFA_of_toMoore hok)
  | @DFA.Obtainable.random _ _ size symbols density s => wellFormed_randomDFA size symbols density s
  | .determinize (A := A) _ => NFA.wellFormed_determinize A
  | .minimize hD => DFA.wellFormed_minimize hD.wellFormed
  | .renumber hD => DFA.wellFormed_rename hD.wellFormed _

end

/-! ## Acceptance -/

/-- **All ways to decide acceptance give the same verdict**, which is whether some run reads the
whole tape and ends in a final state. -/
theorem NFA.Obtainable.acceptance_agrees {A : NFA} (hA : A.Obtainable) (tape : List Char) :
    A.acceptsBacktracking tape = A.accepts tape ∧
      A.acceptsTabulated tape = A.accepts tape ∧
      (A.accepts tape = true ↔ A.Accepts tape) := by
  refine ⟨?_, NFA.acceptsTabulated_eq hA.wellFormed tape, NFA.accepts_iff⟩
  rw [Bool.eq_iff_iff, NFA.acceptsBacktracking_iff, NFA.accepts_iff]

/-- An automaton with a choice, a cycle and a dead end. -/
def branching : NFA where
  states := FinSet.ofList ["dead", "p", "q"]
  alphabet := FinSet.ofList ['a', 'b']
  start := "p"
  finals := FinSet.ofList ["q"]
  edges := FinSet.ofList
    [⟨"p", 'a', "dead"⟩, ⟨"p", 'a', "p"⟩, ⟨"p", 'a', "q"⟩, ⟨"q", 'b', "p"⟩]

theorem branching_obtainable : branching.Obtainable :=
  .described (.addAll .empty
    [.start "p", .final "q", .edge ⟨"p", 'a', "dead"⟩, .edge ⟨"p", 'a', "p"⟩,
      .edge ⟨"p", 'a', "q"⟩, .edge ⟨"q", 'b', "p"⟩]) (by rfl)

/-- The last symbol is not in the alphabet. -/
theorem branching_acceptance_agrees : branching.Obtainable ∧
    branching.acceptsBacktracking ['a', 'b', 'c'] = branching.accepts ['a', 'b', 'c'] ∧
    branching.acceptsTabulated ['a', 'b', 'c'] = branching.accepts ['a', 'b', 'c'] ∧
    (branching.accepts ['a', 'b', 'c'] = true ↔ branching.Accepts ['a', 'b', 'c']) :=
  ⟨branching_obtainable, NFA.Obtainable.acceptance_agrees branching_obtainable _⟩

/-! ## Recognizers and Moore machines -/

/-- The automata of either kind that can be obtained. -/
inductive Recognizer.Obtainable : Recognizer → Prop where
  /-- The automaton that is described, of the kind that the description allows. -/
  | described {d : Description} {r : Recognizer} :
      d.Obtainable → d.toRecognizer = .ok r → Recognizer.Obtainable r
  /-- A deterministic automaton. -/
  | deterministic {D : DFA} : D.Obtainable → Recognizer.Obtainable (.deterministic D)
  /-- A nondeterministic automaton. -/
  | nondeterministic {A : NFA} : A.Obtainable → Recognizer.Obtainable (.nondeterministic A)

/-- The Moore machines that can be obtained. -/
inductive Moore.Obtainable : Moore → Prop where
  /-- The machine that is described, with its outputs. -/
  | described {d : Description} {outputs : List (State × Char)} {m : Moore} :
      d.Obtainable → d.toMoore outputs = .ok m → Moore.Obtainable m

/-- Taken as a nondeterministic automaton, a recognizer is one of those that can be obtained. -/
theorem Recognizer.Obtainable.toNFA {r : Recognizer} (h : r.Obtainable) : r.toNFA.Obtainable := by
  cases h with
  | described hd hok => exact .recognizer hd hok
  | deterministic hD => exact .deterministic hD
  | nondeterministic hA => exact hA

/-- Taken as a deterministic automaton, a recognizer is one of those that can be obtained. -/
theorem Recognizer.Obtainable.toDFA {r : Recognizer} (h : r.Obtainable) : r.toDFA.Obtainable := by
  cases h with
  | described hd hok => exact .recognizer hd hok
  | deterministic hD => exact hD
  | nondeterministic hA => exact .determinize hA

/-- The automaton of a Moore machine is one of those that can be obtained. -/
theorem Moore.Obtainable.automaton {m : Moore} (h : m.Obtainable) : m.automaton.Obtainable := by
  obtain ⟨hd, hok⟩ := h
  exact .moore hd hok

/-- **Whatever can be obtained fits together.**  The start and the final states are among the
states, and every edge leads between two of them along a symbol of the alphabet.  This holds of
automata of either kind, however they are taken, and of the automata in Moore machines. -/
theorem wellFormed_of_obtainable :
    (∀ A : NFA, A.Obtainable → A.WellFormed) ∧
    (∀ D : DFA, D.Obtainable → D.WellFormed) ∧
    (∀ r : Recognizer, r.Obtainable → r.toNFA.WellFormed ∧ r.toDFA.WellFormed) ∧
    ∀ m : Moore, m.Obtainable → m.automaton.WellFormed := by
  refine ⟨fun A hA => hA.wellFormed, fun D hD => hD.wellFormed, fun r hr => ?_, fun m hm => ?_⟩
  · exact ⟨hr.toNFA.wellFormed, hr.toDFA.wellFormed⟩
  · exact hm.automaton.wellFormed

/-- What comes of `branching` on the way through several operations. -/
theorem branching_passes_through :
    branching.determinize.minimize.renumber.Obtainable ∧
      branching.determinize.minimize.renumber.toNFA.renumber.Obtainable :=
  have h : branching.determinize.minimize.renumber.Obtainable :=
    .renumber (.minimize (.determinize branching_obtainable))
  ⟨h, .renumber (.deterministic h)⟩

/-- A machine whose output is the name of the state. -/
def labelled : Moore where
  automaton := DFA.mergeable
  output := FinMap.ofList [("p", 'p'), ("q", 'q'), ("r", 'r'), ("s", 's')]

/-- There is no state `t`, and the first output for `s` is replaced by the second. -/
def labels : List (State × Char) :=
  [("s", 'x'), ("p", 'p'), ("t", 't'), ("q", 'q'), ("r", 'r'), ("s", 's')]

theorem labelled_obtainable : labelled.Obtainable := by
  have hd : (Description.empty.addAll
      [.edge ⟨"s", 'a', "p"⟩, .edge ⟨"s", 'b', "q"⟩, .edge ⟨"p", 'a', "p"⟩, .edge ⟨"q", 'a', "p"⟩,
        .edge ⟨"q", 'b', "r"⟩, .start "s", .final "p", .final "q"]).toDFA
      = .ok DFA.mergeable := Description.toDFA_eq_ok_iff.2 rfl
  have hm : Moore.ofDFA DFA.mergeable (FinMap.ofList labels) = .ok labelled := by
    refine Moore.ofDFA_eq_ok_iff.2 ⟨fun q hq => ?_, by decide⟩
    have hall : ∀ q ∈ DFA.mergeable.states.toList,
        ((FinMap.ofList labels).get? q).isSome = true := by decide
    exact Option.isSome_iff_exists.1 (hall q (NFA.reachable_subset (by decide) hq))
  exact .described (.addAll .empty _) (bind_eq_ok_iff.2 ⟨_, hd, hm⟩)

theorem branching_wellFormed :
    (branching.determinize.minimize.renumber.toNFA.renumber.Obtainable ∧
      branching.determinize.minimize.renumber.toNFA.renumber.WellFormed) ∧
    (branching.determinize.minimize.renumber.Obtainable ∧
      branching.determinize.minimize.renumber.WellFormed) ∧
    ((Recognizer.nondeterministic branching).Obtainable ∧
      branching.WellFormed ∧ branching.determinize.WellFormed) ∧
    labelled.Obtainable ∧ labelled.automaton.WellFormed :=
  have hr : (Recognizer.nondeterministic branching).Obtainable :=
    .nondeterministic branching_obtainable
  ⟨⟨branching_passes_through.2, wellFormed_of_obtainable.1 _ branching_passes_through.2⟩,
    ⟨branching_passes_through.1, wellFormed_of_obtainable.2.1 _ branching_passes_through.1⟩,
    ⟨hr, wellFormed_of_obtainable.2.2.1 _ hr⟩,
    ⟨labelled_obtainable, wellFormed_of_obtainable.2.2.2 _ labelled_obtainable⟩⟩

end Automata
