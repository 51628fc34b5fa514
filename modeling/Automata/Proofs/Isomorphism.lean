import Automata.Proofs.Acceptance
import Automata.Proofs.Renumbering
import Mathlib

/-!
# Automata that differ in the names of their states only

A renaming that keeps the states apart makes an isomorphic copy of an automaton.  Numbering the
states is such a renaming, whatever they were called before: the new names may well be names of
other states of the same automaton.

## What is here

* `NFA.Isomorphism f A B` — `f` takes `A` to `B`, part by part and move by move, and
  `NFA.isomorphism_iff` — this says that `B` is a renaming of `A` which keeps the states apart.
* `FinMap.Numbers` — a map that pairs the members of a set with the numbers below their count, and
  `numbers_numberNames` — the places in a list of the members do.
* `renumber_isomorphism` — **numbering the states is an isomorphism onto the numbered automaton**,
  for either kind of automaton, so that both accept the same tapes.
-/

set_option autoImplicit false

namespace Automata

/-! ## Isomorphisms -/

/-- The states of `A`, renamed by `f`, are those of `B`, and nothing else tells the automata
apart. -/
structure NFA.Isomorphism (f : State → State) (A B : NFA) : Prop where
  /-- Different states have different images. -/
  injOn : Set.InjOn f {q | q ∈ A.states}
  /-- The states are the images. -/
  states_eq : A.states.map f = B.states
  /-- The alphabet stays as it is. -/
  alphabet_eq : A.alphabet = B.alphabet
  /-- The start is the image of the start. -/
  start_eq : f A.start = B.start
  /-- The final states are the images of the final states. -/
  finals_eq : A.finals.map f = B.finals
  /-- Images move as what they are images of. -/
  edge_iff : ∀ p, p ∈ A.states → ∀ q, q ∈ A.states → ∀ a,
    ((⟨f p, a, f q⟩ : Edge) ∈ B.edges ↔ (⟨p, a, q⟩ : Edge) ∈ A.edges)

namespace NFA

variable {A B : NFA} {f : State → State}

/-- A move between images in the renamed automaton is a move in the automaton itself. -/
theorem mem_rename_edges_iff (hA : A.WellFormed) (hf : Set.InjOn f {q | q ∈ A.states})
    {p q : State} (hp : p ∈ A.states) (hq : q ∈ A.states) {a : Char} :
    (⟨f p, a, f q⟩ : Edge) ∈ (A.rename f).edges ↔ (⟨p, a, q⟩ : Edge) ∈ A.edges := by
  refine ⟨fun h => ?_, fun h => mem_rename_edges.2 ⟨_, h, rfl⟩⟩
  obtain ⟨⟨p', b, q'⟩, he, heq⟩ := mem_rename_edges.1 h
  obtain ⟨hpp', rfl, hqq'⟩ := Edge.mk.inj heq
  have hp' : p' = p := hf (hA.source_mem _ he) hp hpp'
  have hq' : q' = q := hf (hA.target_mem _ he) hq hqq'
  exact hp' ▸ hq' ▸ he

/-- Renaming states so that they stay apart is an isomorphism. -/
theorem isomorphism_rename (hA : A.WellFormed) (hf : Set.InjOn f {q | q ∈ A.states}) :
    A.Isomorphism f (A.rename f) where
  injOn := hf
  states_eq := rfl
  alphabet_eq := rfl
  start_eq := rfl
  finals_eq := rfl
  edge_iff _ hp _ hq _ := mem_rename_edges_iff hA hf hp hq

/-- Automata that fit together are isomorphic only if one of them is the other one renamed. -/
theorem Isomorphism.eq_rename (h : A.Isomorphism f B) (hA : A.WellFormed) (hB : B.WellFormed) :
    B = A.rename f := by
  have himage : ∀ {q}, q ∈ B.states → ∃ p, p ∈ A.states ∧ f p = q := fun hq =>
    FinSet.mem_map.1 (h.states_eq ▸ hq)
  have hedges : B.edges = (A.rename f).edges := by
    refine FinSet.ext fun e => ⟨fun he => ?_, fun he => ?_⟩
    · obtain ⟨s, a, t⟩ := e
      obtain ⟨p, hp, rfl⟩ := himage (hB.source_mem _ he)
      obtain ⟨q, hq, rfl⟩ := himage (hB.target_mem _ he)
      exact (mem_rename_edges_iff hA h.injOn hp hq).2 ((h.edge_iff p hp q hq a).1 he)
    · obtain ⟨⟨p, a, q⟩, hd, rfl⟩ := mem_rename_edges.1 he
      exact (h.edge_iff p (hA.source_mem _ hd) q (hA.target_mem _ hd) a).2 hd
  calc B = ⟨B.states, B.alphabet, B.start, B.finals, B.edges⟩ := rfl
    _ = A.rename f := by
      rw [← h.states_eq, ← h.alphabet_eq, ← h.start_eq, ← h.finals_eq, hedges]
      rfl

/-- **Isomorphic copies are renamings that keep the states apart.** -/
theorem isomorphism_iff (hA : A.WellFormed) (hB : B.WellFormed) :
    A.Isomorphism f B ↔ Set.InjOn f {q | q ∈ A.states} ∧ B = A.rename f := by
  refine ⟨fun h => ⟨h.injOn, h.eq_rename hA hB⟩, ?_⟩
  rintro ⟨hf, rfl⟩
  exact isomorphism_rename hA hf

end NFA

/-! ## Numbering is one -/

/-- The map gives a name to every member of the set and to nothing else.  The names are `0`, `1`, …
up to the number of members, each of them given once. -/
structure FinMap.Numbers (m : FinMap State State) (states : FinSet State) : Prop where
  /-- The members are named, and nothing else. -/
  defined_iff : ∀ q, (∃ n, m.get? q = some n) ↔ q ∈ states
  /-- The names are the decimal numbers below the number of members. -/
  name_iff : ∀ n, (∃ q, m.get? q = some n) ↔ ∃ i < states.size, toString i = n
  /-- No name is given twice. -/
  injective : ∀ p q n, m.get? p = some n → m.get? q = some n → p = q

/-- The places in a list that holds every member of a set once number the set. -/
theorem numbers_numberNames {order : List State} {states : FinSet State} (horder : order.Nodup)
    (hmem : ∀ q, q ∈ order ↔ q ∈ states) : (numberNames order).Numbers states where
  defined_iff q := by
    rw [← hmem, List.mem_iff_getElem?]
    refine ⟨?_, ?_⟩
    · rintro ⟨n, hn⟩
      obtain ⟨i, hi, _⟩ := (get?_numberNames horder).1 hn
      exact ⟨i, hi⟩
    · rintro ⟨i, hi⟩
      exact ⟨_, (get?_numberNames horder).2 ⟨i, hi, rfl⟩⟩
  name_iff n := by
    rw [← FinSet.length_eq_size horder hmem]
    refine ⟨?_, ?_⟩
    · rintro ⟨q, hq⟩
      obtain ⟨i, hi, rfl⟩ := (get?_numberNames horder).1 hq
      exact ⟨i, (List.getElem?_eq_some_iff.1 hi).1, rfl⟩
    · rintro ⟨i, hi, rfl⟩
      exact ⟨order[i], (get?_numberNames horder).2 ⟨i, List.getElem?_eq_getElem hi, rfl⟩⟩
  injective p q n hp hq := by
    obtain ⟨i, hi, rfl⟩ := (get?_numberNames horder).1 hp
    obtain ⟨j, hj, hij⟩ := (get?_numberNames horder).1 hq
    rw [eq_of_toString_eq hij, hi] at hj
    exact Option.some_inj.1 hj

namespace NFA

variable {A : NFA}

/-- All states are numbered, those that cannot be reached among them. -/
theorem numbers_numbering (hA : A.WellFormed) : A.numbering.Numbers A.states :=
  numbers_numberNames A.nodup_numberingOrder fun _ => mem_numberingOrder hA

theorem isomorphism_renumber (hA : A.WellFormed) :
    A.Isomorphism A.numbering.rename A.renumber := isomorphism_rename hA (injOn_numbering hA)

/-- Numbering keeps the language. -/
theorem accepts_renumber (hA : A.WellFormed) (w : List Char) :
    A.renumber.accepts w = A.accepts w := by
  rw [Bool.eq_iff_iff, accepts_iff, accepts_iff]
  exact accepts_rename hA (injOn_numbering hA) w

end NFA

/-- A deterministic automaton is numbered like any other: no move is lost. -/
theorem DFA.toNFA_renumber {D : DFA} (hD : D.WellFormed) : D.renumber.toNFA = D.toNFA.renumber :=
  DFA.toNFA_rename hD (NFA.injOn_numbering hD)

/-- **Numbering the states is an isomorphism.**  The old names are paired with the numbers below
their count, and the numbered automaton is the image under this pairing.  So it accepts the same
tapes. -/
theorem renumber_isomorphism :
    (∀ A : NFA, A.WellFormed →
      A.numbering.Numbers A.states ∧ A.renumber.WellFormed ∧
        A.Isomorphism A.numbering.rename A.renumber ∧
        ∀ tape, A.renumber.accepts tape = A.accepts tape) ∧
    ∀ D : DFA, D.WellFormed →
      D.numbering.Numbers D.states ∧ D.renumber.WellFormed ∧
        D.Isomorphism D.numbering.rename D.renumber.toNFA ∧
        ∀ tape, D.renumber.accepts tape = D.accepts tape := by
  refine ⟨fun A hA => ?_, fun D hD => ?_⟩
  · exact ⟨NFA.numbers_numbering hA, NFA.wellFormed_rename hA _, NFA.isomorphism_renumber hA,
      NFA.accepts_renumber hA⟩
  · refine ⟨NFA.numbers_numbering hD, DFA.wellFormed_rename hD _, ?_, DFA.accepts_renumber hD⟩
    rw [DFA.toNFA_renumber hD]
    exact NFA.isomorphism_renumber hD

/-- The states are called by numbers already, but not by their own, and `0` cannot be reached. -/
def misnumbered : DFA :=
  let moves := FunctionalRelation.ofList
    [⟨"2", 'a', "1"⟩, ⟨"1", 'a', "2"⟩, ⟨"1", 'b', "1"⟩, ⟨"0", 'b', "1"⟩]
  { states := FinSet.ofList ["0", "1", "2"]
    alphabet := FinSet.ofList ['a', 'b']
    start := "2"
    finals := FinSet.ofList ["0", "1"]
    edges := moves.edges
    functional := moves.functional }

theorem misnumbered_isomorphism :
    (misnumbered.numbering.entries = [("0", "2"), ("1", "1"), ("2", "0")] ∧
      misnumbered.WellFormed) ∧
    (misnumbered.numbering.Numbers misnumbered.states ∧
      misnumbered.toNFA.renumber.WellFormed ∧
      misnumbered.Isomorphism misnumbered.numbering.rename misnumbered.toNFA.renumber ∧
      ∀ tape, misnumbered.toNFA.renumber.accepts tape = misnumbered.toNFA.accepts tape) ∧
    misnumbered.numbering.Numbers misnumbered.states ∧
      misnumbered.renumber.WellFormed ∧
      misnumbered.Isomorphism misnumbered.numbering.rename misnumbered.renumber.toNFA ∧
      ∀ tape, misnumbered.renumber.accepts tape = misnumbered.accepts tape :=
  ⟨⟨by cbv, by decide⟩, renumber_isomorphism.1 _ (by decide),
    renumber_isomorphism.2 misnumbered (by decide)⟩

end Automata
