import Automata.Proofs.Runs
import Automata.Proofs.SearchOrder

/-!
# The least word on which two automata differ

Two automata that are run side by side stand at a pairing of positions.  The comparison searches
the pairings in the order of the least words that lead to them, so the first pairing at which the
verdicts differ was found along the least word on which the automata differ.  It is enough to look
at every pairing once, because the verdicts after a word hang on the pairing alone.

## What is here

* `DFA.walk_productGraph_iff` — the search walks to the pairings at which the automata stand after
  some word, except for the one where both are stuck.
* `DFA.FirstDifference` — the least word on which the verdicts differ.
* `DFA.leastDifference?_eq_none_iff`, `DFA.leastDifference?_eq_some_iff` — **the comparison finds
  that word, and finds nothing exactly if the automata accept the same tapes**, whatever their
  alphabets are.
* `DFA.leastDifference?_exact` — so it does not matter which of the two is named first.
-/

set_option autoImplicit false

namespace Automata

namespace DFA

variable {D E : DFA} {x y : Pairing} {w : List Char}

/-! ## The pairings that the search meets -/

theorem mem_productGraph_arcs {a : Char} :
    (a, y) ∈ (productGraph D E).arcs x ↔
      (a ∈ D.alphabet ∨ a ∈ E.alphabet) ∧ advance D E x a = y ∧ y ≠ (none, none) := by
  rw [productGraph, List.mem_filterMap]
  refine ⟨?_, ?_⟩
  · rintro ⟨b, hb, hby⟩
    by_cases hn : advance D E x b = (none, none)
    · simp [hn] at hby
    · simp only [hn, if_false, Option.some.injEq, Prod.mk.injEq] at hby
      obtain ⟨rfl, rfl⟩ := hby
      exact ⟨FinSet.mem_union.1 hb, rfl, hn⟩
  · rintro ⟨ha, rfl, hn⟩
    exact ⟨a, FinSet.mem_union.2 ha, by simp only [hn, if_false]⟩

theorem productGraph_ascending (D E : DFA) : (productGraph D E).Ascending := by
  intro x
  refine List.Pairwise.filterMap _ (fun a a' hlt b hb b' hb' => ?_)
    (FinSet.symbols_ascending (D.alphabet.union E.alphabet))
  dsimp only at hb hb'
  split at hb
  · cases hb
  · split at hb'
    · cases hb'
    · cases hb
      cases hb'
      exact hlt

/-- Where two automata stand after a word. -/
def afterBoth (D E : DFA) (x : Pairing) (w : List Char) : Pairing := (D.after x.1 w, E.after x.2 w)

theorem afterBoth_cons (x : Pairing) (a : Char) (w : List Char) :
    afterBoth D E x (a :: w) = afterBoth D E (advance D E x a) w := rfl

theorem afterBoth_none (w : List Char) : afterBoth D E (none, none) w = (none, none) := by
  rw [afterBoth, after_none, after_none]

/-- No symbol outside both alphabets leads anywhere. -/
theorem mem_alphabet_of_advance (hD : D.WellFormed) (hE : E.WellFormed) {a : Char}
    (h : advance D E x a ≠ (none, none)) : a ∈ D.alphabet ∨ a ∈ E.alphabet := by
  by_contra ha
  rw [not_or] at ha
  exact h (Prod.ext (move_of_not_mem hD ha.1 x.1) (move_of_not_mem hE ha.2 x.2))

/-- **The search walks to where the automata stand after a word**, unless both are stuck. -/
theorem walk_productGraph_iff (hD : D.WellFormed) (hE : E.WellFormed) (hx : x ≠ (none, none)) :
    (productGraph D E).Walk x w y ↔ afterBoth D E x w = y ∧ y ≠ (none, none) := by
  induction w generalizing x with
  | nil =>
    refine ⟨fun h => ?_, ?_⟩
    · cases h
      exact ⟨rfl, hx⟩
    · rintro ⟨rfl, _⟩
      exact .nil x
  | cons a w ih =>
    rw [afterBoth_cons]
    refine ⟨fun h => ?_, fun h => ?_⟩
    · cases h with
      | cons harc h =>
        obtain ⟨_, rfl, hn⟩ := mem_productGraph_arcs.1 harc
        exact (ih hn).1 h
    · have hn : advance D E x a ≠ (none, none) := by
        intro hn
        rw [hn, afterBoth_none] at h
        exact h.2 h.1.symm
      have harc := mem_productGraph_arcs.2 ⟨mem_alphabet_of_advance hD hE hn, rfl, hn⟩
      exact .cons harc ((ih hn).2 h)

/-! ## The least difference -/

/-- Where both automata begin. -/
def startBoth (D E : DFA) : Pairing := (some D.start, some E.start)

theorem startBoth_ne (D E : DFA) : startBoth D E ≠ (none, none) := nofun

/-- Whether the verdicts at a pairing differ. -/
def differsAt (D E : DFA) (x : Pairing) : Bool := D.acceptsAt x.1 != E.acceptsAt x.2

/-- The verdicts on a word differ exactly if they do where the automata stand after it. -/
theorem differsAt_afterBoth :
    differsAt D E (afterBoth D E (startBoth D E) w) = true ↔ D.accepts w ≠ E.accepts w := by
  rw [differsAt, bne_iff_ne, accepts_eq, accepts_eq, future, future]
  rfl

theorem ne_none_of_differsAt (h : differsAt D E x = true) : x ≠ (none, none) := by
  rintro rfl
  cases h

/-- `w` is the least word on which the verdicts differ. -/
structure FirstDifference (D E : DFA) (w : List Char) : Prop where
  /-- The verdicts on the word differ. -/
  differs : D.accepts w ≠ E.accepts w
  /-- Every other word on which they differ comes later. -/
  least : ∀ v, D.accepts v ≠ E.accepts v → v = w ∨ Precedes w v

theorem FirstDifference.symm (h : FirstDifference D E w) : FirstDifference E D w :=
  ⟨h.differs.symm, fun v hv => h.least v hv.symm⟩

/-- There is only one least word. -/
theorem FirstDifference.unique {v : List Char} (hv : FirstDifference D E v)
    (hw : FirstDifference D E w) : v = w := by
  rcases hv.least w hw.differs with heq | hlt
  · exact heq.symm
  · exact (hw.least v hv.differs).resolve_right hlt.asymm

/-- Every word on which the verdicts differ leads to a visit, which was found along no later
word. -/
theorem exists_visit_of_differs (hD : D.WellFormed) (hE : E.WellFormed)
    (h : D.accepts w ≠ E.accepts w) :
    ∃ v ∈ (productGraph D E).discover (startBoth D E), differsAt D E v.node = true ∧
      (v.word = w ∨ Precedes v.word w) := by
  have hdiffers := differsAt_afterBoth.2 h
  have hwalk := (walk_productGraph_iff hD hE (startBoth_ne D E)).2
    ⟨rfl, ne_none_of_differsAt hdiffers⟩
  obtain ⟨v, hv, hnode, hle⟩ := Graph.exists_visit_le (productGraph_ascending D E) hwalk
  exact ⟨v, hv, hnode ▸ hdiffers, hle⟩

/-- A visit stands where its word leads. -/
theorem node_of_mem_discover (hD : D.WellFormed) (hE : E.WellFormed) {v : Visit Pairing}
    (hv : v ∈ (productGraph D E).discover (startBoth D E)) :
    v.node = afterBoth D E (startBoth D E) v.word :=
  ((walk_productGraph_iff hD hE (startBoth_ne D E)).1 (Graph.walk_of_mem_discover hv)).1.symm

theorem leastDifference?_eq (D E : DFA) : leastDifference? D E =
    (((productGraph D E).discover (startBoth D E)).find? fun v => differsAt D E v.node).map
      Visit.word := rfl

/-- The comparison finds nothing exactly if there is nothing to find. -/
theorem leastDifference?_eq_none_iff (hD : D.WellFormed) (hE : E.WellFormed) :
    leastDifference? D E = none ↔ ∀ w, D.accepts w = E.accepts w := by
  rw [leastDifference?_eq, Option.map_eq_none_iff, List.find?_eq_none]
  refine ⟨fun h w => ?_, fun h v hv hdiffers => ?_⟩
  · by_contra hne
    obtain ⟨v, hv, hdiffers, _⟩ := exists_visit_of_differs hD hE hne
    exact h v hv hdiffers
  · rw [node_of_mem_discover hD hE hv] at hdiffers
    exact differsAt_afterBoth.1 hdiffers (h v.word)

theorem firstDifference_of_eq_some (hD : D.WellFormed) (hE : E.WellFormed)
    (h : leastDifference? D E = some w) : FirstDifference D E w := by
  rw [leastDifference?_eq, Option.map_eq_some_iff] at h
  obtain ⟨u, hu, rfl⟩ := h
  refine ⟨?_, fun w hw => ?_⟩
  · have hdiffers := List.find?_some hu
    rw [node_of_mem_discover hD hE (List.mem_of_find?_eq_some hu)] at hdiffers
    exact differsAt_afterBoth.1 hdiffers
  · obtain ⟨v, hv, hdiffers, hle⟩ := exists_visit_of_differs hD hE hw
    have hfirst := eq_or_rel_of_find?
      (Graph.discover_ascending (productGraph_ascending D E) (startBoth D E)) hu hv hdiffers
    rcases hfirst with rfl | hlt
    · exact hle.imp_left Eq.symm
    · exact .inr (hle.elim (fun e => e ▸ hlt) fun hvw => hlt.trans hvw)

/-- The comparison finds the least word on which the verdicts differ. -/
theorem leastDifference?_eq_some_iff (hD : D.WellFormed) (hE : E.WellFormed) :
    leastDifference? D E = some w ↔ FirstDifference D E w := by
  refine ⟨firstDifference_of_eq_some hD hE, fun h => ?_⟩
  cases hfound : leastDifference? D E with
  | none => exact absurd ((leastDifference?_eq_none_iff hD hE).1 hfound w) h.differs
  | some v => rw [(firstDifference_of_eq_some hD hE hfound).unique h]

/-- **The comparison is exact.**  It finds nothing exactly if the automata agree on all tapes, over
whatever symbols, and otherwise the least tape on which they do not.  Hence it is symmetric. -/
theorem leastDifference?_exact (hD : D.WellFormed) (hE : E.WellFormed) :
    (leastDifference? D E = none ↔ ∀ w, D.accepts w = E.accepts w) ∧
      (∀ w, leastDifference? D E = some w ↔ FirstDifference D E w) ∧
      leastDifference? D E = leastDifference? E D := by
  refine ⟨leastDifference?_eq_none_iff hD hE, fun w => leastDifference?_eq_some_iff hD hE, ?_⟩
  refine Option.ext fun w => ?_
  rw [leastDifference?_eq_some_iff hD hE, leastDifference?_eq_some_iff hE hD]
  exact ⟨FirstDifference.symm, FirstDifference.symm⟩

/-- Reads `a` and `b` in turn. -/
def alternating : DFA :=
  let moves := FunctionalRelation.ofList [⟨"p", 'a', "q"⟩, ⟨"q", 'b', "p"⟩]
  { states := FinSet.ofList ["p", "q"]
    alphabet := FinSet.ofList ['a', 'b']
    start := "p"
    finals := FinSet.ofList ["p"]
    edges := moves.edges
    functional := moves.functional }

/-- Allows a last `c`, and has a state that cannot be reached. -/
def alternatingWithTail : DFA :=
  let moves := FunctionalRelation.ofList
    [⟨"p", 'a', "q"⟩, ⟨"q", 'b', "p"⟩, ⟨"p", 'c', "r"⟩, ⟨"u", 'a', "r"⟩]
  { states := FinSet.ofList ["p", "q", "r", "u"]
    alphabet := FinSet.ofList ['a', 'b', 'c']
    start := "p"
    finals := FinSet.ofList ["p", "r", "u"]
    edges := moves.edges
    functional := moves.functional }

theorem alternating_leastDifference : alternating.WellFormed ∧ alternatingWithTail.WellFormed ∧
    (leastDifference? alternating alternatingWithTail = none ↔
      ∀ w, alternating.accepts w = alternatingWithTail.accepts w) ∧
    (∀ w, leastDifference? alternating alternatingWithTail = some w ↔
      FirstDifference alternating alternatingWithTail w) ∧
    leastDifference? alternating alternatingWithTail
      = leastDifference? alternatingWithTail alternating :=
  ⟨by decide, by decide, leastDifference?_exact (by decide) (by decide)⟩

end DFA

end Automata
