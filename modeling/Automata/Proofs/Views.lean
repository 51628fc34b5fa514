import Automata.Proofs.Ambiguity
import Automata.Proofs.Obtainable

/-!
# In whichever way an automaton is taken

A description can be asked for a nondeterministic automaton, for a deterministic one, or for an
automaton of the kind that it allows, and what is made can be turned into the other kind.  The edges
are kept, narrowed to a functional relation, widened again or combined into those of subsets, and
there are five ways to run a tape.  Nothing of this makes a difference: each of the automata is
compared with the paths of the one that is described.

## What is here

* `NFA.Verdict` — the verdict that all ways to run a nondeterministic automaton come to;
  `NFA.WellFormed.verdict` and `DFA.verdict_toNFA` say what it is.
* `Recognizer.accepts_toNFA`, `Recognizer.accepts_toDFA` — an automaton of either kind, taken as one
  of the other.
* `Description.toRecognizer_eq_deterministic_iff`, `Description.exists_toDFA_eq_ok_iff` —
  when a description gives a deterministic automaton.
* `views_agree` — **all automata that are made from one description accept the same tapes.**
-/

set_option autoImplicit false

namespace Automata

variable {tape : List Char} {d : Description} {A : NFA} {D : DFA} {r : Recognizer}

/-- However it is decided whether the automaton accepts the tape, the answer is the same. -/
structure NFA.Verdict (A : NFA) (tape : List Char) (answer : Bool) : Prop where
  /-- Following one run at a time. -/
  backtracking : A.acceptsBacktracking tape = answer
  /-- Following the set of active states. -/
  frontier : A.accepts tape = answer
  /-- Following that set on numbers. -/
  tabulated : A.acceptsTabulated tape = answer

theorem NFA.WellFormed.verdict (hA : A.WellFormed) (tape : List Char) :
    A.Verdict tape (A.accepts tape) where
  backtracking := by rw [Bool.eq_iff_iff, NFA.acceptsBacktracking_iff, NFA.accepts_iff]
  frontier := rfl
  tabulated := NFA.acceptsTabulated_eq hA tape

/-! ## Automata of one kind as automata of the other -/

/-- A deterministic automaton has the runs that it has as a nondeterministic one. -/
theorem DFA.accepts_toNFA : D.toNFA.accepts tape = D.accepts tape := by
  rw [Bool.eq_iff_iff, NFA.accepts_iff, DFA.accepts_iff]

theorem DFA.verdict_toNFA (hD : D.WellFormed) (tape : List Char) :
    D.toNFA.Verdict tape (D.accepts tape) :=
  DFA.accepts_toNFA ▸ NFA.WellFormed.verdict hD tape

namespace Recognizer

theorem accepts_toNFA : r.toNFA.accepts tape = r.accepts tape := by
  cases r with
  | deterministic D => exact DFA.accepts_toNFA
  | nondeterministic A => rfl

theorem alphabet_toDFA (r : Recognizer) : r.toDFA.alphabet = r.toNFA.alphabet := by
  cases r <;> rfl

theorem wellFormed_toDFA (h : r.toNFA.WellFormed) : r.toDFA.WellFormed :=
  match r with
  | deterministic _ => h
  | nondeterministic A => NFA.wellFormed_determinize A

/-- The subset construction is made where it is needed, and changes no verdict. -/
theorem accepts_toDFA (h : r.toNFA.WellFormed) (w : List Char) : r.toDFA.accepts w = r.accepts w :=
  match r with
  | deterministic _ => rfl
  | nondeterministic _ => NFA.accepts_determinize h w

end Recognizer

/-! ## What is made from a description -/

namespace Description

/-- Only a description without a start gives no automaton. -/
theorem toNFA_eq_error_iff {x : Error} :
    d.toNFA = .error x ↔ d.start = none ∧ x = .missingStart := by
  rw [toNFA]
  cases d.start with
  | none => simp only [Except.error.injEq, true_and, eq_comm]
  | some q =>
    constructor
    · rintro ⟨⟩
    · rintro ⟨⟨⟩, _⟩

/-- The automaton is deterministic exactly if it can be had as a deterministic one. -/
theorem toRecognizer_eq_deterministic_iff :
    d.toRecognizer = .ok (.deterministic D) ↔ d.toDFA = .ok D := by
  rw [toDFA_eq_ok_iff]
  refine ⟨toNFA_of_toRecognizer, fun h => ?_⟩
  rcases toRecognizer_cases h with ⟨E, hE, hok⟩ | ⟨hnot, _⟩
  · rw [hok, DFA.toNFA_injective hE]
  · exact absurd D.functional hnot

/-- A description with a start gives a deterministic automaton exactly if its edges are those of a
functional relation. -/
theorem exists_toDFA_eq_ok_iff (h : d.toNFA = .ok A) :
    (∃ D, d.toDFA = .ok D) ↔ d.edges.IsFunctional := by
  obtain ⟨q, _, rfl⟩ := toNFA_eq_ok_iff.1 h
  simp only [toDFA_eq_ok_iff, h, Except.ok.injEq]
  constructor
  · rintro ⟨D, hD⟩
    have hedges : D.edges = d.edges := (congrArg NFA.edges hD).symm
    exact hedges ▸ D.functional
  · intro hfunctional
    exact ⟨⟨_, hfunctional⟩, rfl⟩

end Description

/-- **In whichever way an automaton is taken, it accepts the same tapes.**  What a description with
a start gives is deterministic exactly if every state has at most one target on every symbol, and
taken as nondeterministic it is the automaton that is described.  Its verdict on a tape is that of
all ways to run it, of the deterministic automaton that is made from it by the subset construction,
and of the one that is described if there is one.  In particular no deterministic automaton gains or
loses a tape when it is taken as a nondeterministic one. -/
theorem views_agree :
    (∀ d : Description, d.Obtainable → ∀ q, d.start = some q →
      ∃ r A, d.toRecognizer = .ok r ∧ d.toNFA = .ok A ∧ r.toNFA = A ∧
        ((∃ D, r = .deterministic D) ↔
          ∀ q a p p', (⟨q, a, p⟩ : Edge) ∈ d.edges → (⟨q, a, p'⟩ : Edge) ∈ d.edges → p = p') ∧
        (∀ D, d.toDFA = .ok D ↔ r = .deterministic D) ∧
        ∀ tape, r.toNFA.Verdict tape (r.accepts tape) ∧
          r.toDFA.accepts tape = r.accepts tape ∧
          (∀ D, d.toDFA = .ok D → D.accepts tape = r.accepts tape) ∧
          (r.accepts tape = true ↔ A.Accepts tape)) ∧
    ∀ D : DFA, D.Obtainable → ∀ tape, D.toNFA.Verdict tape (D.accepts tape) := by
  refine ⟨fun d hd q hq => ?_, fun D hD tape => DFA.verdict_toNFA hD.wellFormed tape⟩
  obtain ⟨A, hA⟩ : ∃ A, d.toNFA = .ok A := ⟨_, Description.toNFA_eq_ok_iff.2 ⟨q, hq, rfl⟩⟩
  obtain ⟨r, hr⟩ : ∃ r, d.toRecognizer = .ok r := by
    rcases Description.toRecognizer_cases hA with ⟨D, _, hD⟩ | ⟨_, hA⟩
    · exact ⟨_, hD⟩
    · exact ⟨_, hA⟩
  have hrA : r.toNFA = A := by
    have h := (Description.toNFA_of_toRecognizer hr).symm.trans hA
    exact Except.ok.inj h
  have hdfa : ∀ D, d.toDFA = .ok D ↔ r = .deterministic D := fun D => by
    rw [← Description.toRecognizer_eq_deterministic_iff, hr, Except.ok.injEq]
  have hwf : r.toNFA.WellFormed := hrA ▸ Description.wellFormed_toNFA hd.closed hA
  refine ⟨r, A, hr, hA, hrA, ?_, hdfa, fun tape => ⟨?_, Recognizer.accepts_toDFA hwf tape, ?_, ?_⟩⟩
  · simp only [← hdfa, Description.exists_toDFA_eq_ok_iff hA, Relation.isFunctional_iff]
  · exact Recognizer.accepts_toNFA ▸ hwf.verdict tape
  · intro D hD
    rw [(hdfa D).1 hD, Recognizer.accepts]
  · rw [← hrA, ← NFA.accepts_iff, Recognizer.accepts_toNFA]

/-- There are two ways to go from `p` on `a`. -/
def forked : Description :=
  Description.empty.addAll
    [.start "p", .final "q", .edge ⟨"p", 'a', "p"⟩, .edge ⟨"p", 'a', "q"⟩, .edge ⟨"q", 'b', "p"⟩]

/-- The same with the first edge taken out. -/
def unforked : Description :=
  Description.empty.addAll [.start "p", .final "q", .edge ⟨"p", 'a', "q"⟩, .edge ⟨"q", 'b', "p"⟩]

theorem forked_views_agree :
    (forked.Obtainable ∧ forked.start = some "p" ∧
      ∃ r A, forked.toRecognizer = .ok r ∧ forked.toNFA = .ok A ∧ r.toNFA = A ∧
        (¬∃ D, r = .deterministic D) ∧ r.toNFA.Verdict ['a', 'a'] true ∧
        r.toDFA.accepts ['a', 'a'] = true) ∧
    (unforked.Obtainable ∧ unforked.start = some "p" ∧
      ∃ D, unforked.toRecognizer = .ok (.deterministic D) ∧ unforked.toDFA = .ok D ∧
        unforked.toNFA = .ok D.toNFA ∧ D.accepts ['a', 'b', 'a'] = true) ∧
    branching.determinize.Obtainable ∧
      branching.determinize.toNFA.Verdict ['a', 'b']
        (branching.determinize.accepts ['a', 'b']) := by
  have hforked : forked.Obtainable := .addAll .empty _
  have hunforked : unforked.Obtainable := .addAll .empty _
  have hbranching : branching.determinize.Obtainable := .determinize branching_obtainable
  refine ⟨⟨hforked, rfl, ?_⟩, ⟨hunforked, rfl, ?_⟩, hbranching, views_agree.2 _ hbranching _⟩
  · obtain ⟨r, A, hr, hA, hrA, hkind, _, hviews⟩ := views_agree.1 forked hforked "p" rfl
    obtain ⟨hverdict, hdfa, _, hpath⟩ := hviews ['a', 'a']
    have haccepts : r.accepts ['a', 'a'] = true := by
      refine hpath.2 ?_
      cases hA
      exact ⟨"q", .cons (r := "p") (by decide) (.cons (r := "q") (by decide) (.nil "q")), by decide⟩
    have htwo : ¬∃ D, r = .deterministic D := fun h =>
      absurd (hkind.1 h "p" 'a' "p" "q" (by decide) (by decide)) (by decide)
    exact ⟨r, A, hr, hA, hrA, htwo, haccepts ▸ hverdict, hdfa.trans haccepts⟩
  · obtain ⟨r, A, hr, hA, hrA, hkind, hdfa, hviews⟩ := views_agree.1 unforked hunforked "p" rfl
    have hone : ∀ e ∈ unforked.edges.toList, ∀ e' ∈ unforked.edges.toList,
        e.source = e'.source → e.symbol = e'.symbol → e.target = e'.target := by decide
    obtain ⟨D, rfl⟩ := hkind.2 fun q a p p' h h' => hone _ h _ h' rfl rfl
    have hD := (hdfa D).2 rfl
    have hpath := (hviews ['a', 'b', 'a']).2.2.2
    cases hA
    refine ⟨D, hr, hD, Description.toDFA_eq_ok_iff.1 hD, hpath.2 ⟨"q", ?_, by decide⟩⟩
    exact .cons (r := "q") (by decide) (.cons (r := "p") (by decide)
      (.cons (r := "q") (by decide) (.nil "q")))

end Automata
