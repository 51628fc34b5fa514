import Automata.Proofs.SubsetStates

/-!
# Determinizing what is deterministic

In a deterministic automaton at most one state is active after a word.  So the subset construction
discovers the reachable states, each as the set of itself alone, and as it finds no others, all it
does is leave out the unreachable states and put braces around the names.

## What is here

* `NFA.restrict`, `DFA.restrict` — an automaton with some of its states only, and
  `DFA.reachablePart` — with those that can be reached.
* `DFA.mem_subsets_toNFA_iff` — the discovered sets are the single reachable states, and
  `DFA.subsetName_toNFA_eq_some_iff` — none of them is primed.
* `DFA.isomorphism_determinize_toNFA` — putting braces around the names is an isomorphism from the
  reachable part to the determinized automaton, and `DFA.determinize_toNFA` — **so these are
  equal.**
-/

set_option autoImplicit false

namespace Automata

/-! ## Some of the states -/

/-- The automaton with those of its states only that are in `kept`, and what belongs to them. -/
def NFA.restrict (A : NFA) (kept : FinSet State) : NFA where
  states := A.states.filter (· ∈ kept)
  alphabet := A.alphabet
  start := A.start
  finals := A.finals.filter (· ∈ kept)
  edges := A.edges.filter fun e => e.source ∈ kept ∧ e.target ∈ kept

namespace NFA

variable {A : NFA} {kept : FinSet State} {q : State} {e : Edge}

@[simp] theorem mem_restrict_states : q ∈ (A.restrict kept).states ↔ q ∈ A.states ∧ q ∈ kept := by
  simp [restrict]

@[simp] theorem mem_restrict_finals : q ∈ (A.restrict kept).finals ↔ q ∈ A.finals ∧ q ∈ kept := by
  simp [restrict]

@[simp] theorem mem_restrict_edges :
    e ∈ (A.restrict kept).edges ↔ e ∈ A.edges ∧ e.source ∈ kept ∧ e.target ∈ kept := by
  simp [restrict]

/-- What is left fits together as long as the start is kept. -/
theorem wellFormed_restrict (hA : A.WellFormed) (hstart : A.start ∈ kept) :
    (A.restrict kept).WellFormed where
  start_mem := mem_restrict_states.2 ⟨hA.start_mem, hstart⟩
  finals_subset q hq := by
    obtain ⟨hf, hk⟩ := mem_restrict_finals.1 hq
    exact mem_restrict_states.2 ⟨hA.finals_subset q hf, hk⟩
  source_mem e he := by
    obtain ⟨hedge, hs, _⟩ := mem_restrict_edges.1 he
    exact mem_restrict_states.2 ⟨hA.source_mem e hedge, hs⟩
  target_mem e he := by
    obtain ⟨hedge, _, ht⟩ := mem_restrict_edges.1 he
    exact mem_restrict_states.2 ⟨hA.target_mem e hedge, ht⟩
  symbol_mem e he := hA.symbol_mem e (mem_restrict_edges.1 he).1

end NFA

namespace DFA

/-- The deterministic automaton with those of its states only that are in `kept`. -/
def restrict (D : DFA) (kept : FinSet State) : DFA :=
  { D.toNFA.restrict kept with
    functional := fun e he e' he' => D.functional e (NFA.mem_restrict_edges.1 he).1 e'
      (NFA.mem_restrict_edges.1 he').1 }

/-- The automaton without the states that cannot be reached. -/
def reachablePart (D : DFA) : DFA := D.restrict D.reachable

variable {D : DFA} {s : FinSet State} {n p q : State} {a : Char} {w : List Char}

theorem wellFormed_reachablePart (hD : D.WellFormed) : D.reachablePart.WellFormed :=
  NFA.wellFormed_restrict hD NFA.start_mem_reachable

theorem mem_reachablePart_states (hD : D.WellFormed) :
    q ∈ D.reachablePart.states ↔ q ∈ D.reachable := by
  refine NFA.mem_restrict_states.trans ⟨And.right, fun hq => ⟨?_, hq⟩⟩
  exact NFA.reachable_subset hD hq

/-! ## Single states -/

/-- Nothing but the position of the run is active. -/
theorem mem_active_toNFA : q ∈ D.toNFA.active w ↔ D.after (some D.start) w = some q :=
  NFA.mem_active.trans after_eq_some_iff.symm

theorem active_toNFA_eq_singleton_iff :
    D.toNFA.active w = FinSet.singleton q ↔ D.after (some D.start) w = some q := by
  refine ⟨fun h => ?_, fun h => FinSet.ext fun p => ?_⟩
  · exact mem_active_toNFA.1 (h ▸ FinSet.mem_singleton.2 rfl)
  · rw [mem_active_toNFA, h, FinSet.mem_singleton, Option.some_inj, eq_comm]

/-- **The discovered sets are the single reachable states.** -/
theorem mem_subsets_toNFA_iff (hD : D.WellFormed) :
    s ∈ D.toNFA.subsets ↔ ∃ q, q ∈ D.reachable ∧ s = FinSet.singleton q := by
  rw [NFA.mem_subsets_iff hD]
  refine ⟨?_, ?_⟩
  · rintro ⟨hne, w, rfl⟩
    obtain ⟨q, hq⟩ := List.exists_mem_of_ne_nil _ (FinSet.isEmpty_eq_false_iff.1 hne)
    have hafter := mem_active_toNFA.1 hq
    exact ⟨q, mem_reachable_iff_after.2 ⟨w, hafter⟩, active_toNFA_eq_singleton_iff.2 hafter⟩
  · rintro ⟨q, hq, rfl⟩
    obtain ⟨w, hw⟩ := mem_reachable_iff_after.1 hq
    exact ⟨NFA.isEmpty_singleton q, w, active_toNFA_eq_singleton_iff.2 hw⟩

/-- None of the names is primed, as the names of single states differ. -/
theorem subsetName_toNFA_eq_some_iff (hD : D.WellFormed) :
    D.toNFA.subsetName s = some n ↔
      ∃ q, q ∈ D.reachable ∧ s = FinSet.singleton q ∧ braced [q] = n := by
  have hname : ∀ {q}, q ∈ D.reachable →
      D.toNFA.subsetName (FinSet.singleton q) = some (braced [q]) := by
    intro q hq
    refine NFA.subsetName_eq_braced ((mem_subsets_toNFA_iff hD).2 ⟨q, hq, rfl⟩) fun t ht h => ?_
    obtain ⟨p, _, rfl⟩ := (mem_subsets_toNFA_iff hD).1 ht
    rw [braced_singleton_inj_iff.1 h]
  refine ⟨fun h => ?_, ?_⟩
  · obtain ⟨q, hq, rfl⟩ := (mem_subsets_toNFA_iff hD).1 (NFA.mem_subsets_of_subsetName h)
    rw [hname hq] at h
    exact ⟨q, hq, rfl, Option.some_inj.1 h⟩
  · rintro ⟨q, hq, rfl, rfl⟩
    exact hname hq

/-- A step from a single state follows its only edge. -/
theorem step_singleton_eq_singleton_iff :
    D.toNFA.step (FinSet.singleton q) a = FinSet.singleton p ↔ (⟨q, a, p⟩ : Edge) ∈ D.edges := by
  have hstep : ∀ {r}, r ∈ D.toNFA.step (FinSet.singleton q) a ↔ (⟨q, a, r⟩ : Edge) ∈ D.edges := by
    simp [NFA.mem_step]
  refine ⟨fun h => hstep.1 (h ▸ FinSet.mem_singleton.2 rfl), fun he => FinSet.ext fun r => ?_⟩
  rw [hstep, FinSet.mem_singleton]
  refine ⟨fun hr => ?_, fun hr => hr ▸ he⟩
  exact congrArg Edge.target (D.functional _ hr _ he rfl rfl)

/-! ## The determinized automaton -/

/-- Putting braces around the names takes the reachable part to the determinized automaton. -/
theorem isomorphism_determinize_toNFA (hD : D.WellFormed) :
    D.reachablePart.toNFA.Isomorphism (fun q => braced [q]) D.toNFA.determinize.toNFA where
  injOn _ _ _ _ h := braced_singleton_inj_iff.1 h
  states_eq := by
    refine FinSet.ext fun n => ?_
    simp only [FinSet.mem_map, mem_reachablePart_states hD, NFA.mem_determinize_states,
      subsetName_toNFA_eq_some_iff hD]
    refine ⟨?_, ?_⟩
    · rintro ⟨q, hq, rfl⟩
      exact ⟨_, q, hq, rfl, rfl⟩
    · rintro ⟨_, q, hq, _, rfl⟩
      exact ⟨q, hq, rfl⟩
  alphabet_eq := rfl
  start_eq := rfl
  finals_eq := by
    refine FinSet.ext fun n => ?_
    simp only [FinSet.mem_map, NFA.mem_determinize_finals, subsetName_toNFA_eq_some_iff hD,
      FinSet.meets_iff]
    refine ⟨?_, ?_⟩
    · rintro ⟨q, hq, rfl⟩
      obtain ⟨hf, hr⟩ := NFA.mem_restrict_finals.1 hq
      exact ⟨_, ⟨q, hr, rfl, rfl⟩, q, FinSet.mem_singleton.2 rfl, hf⟩
    · rintro ⟨_, ⟨q, hr, rfl, rfl⟩, p, hp, hf⟩
      rw [FinSet.mem_singleton] at hp
      exact ⟨q, NFA.mem_restrict_finals.2 ⟨hp ▸ hf, hr⟩, rfl⟩
  edge_iff p hp q hq a := by
    rw [mem_reachablePart_states hD] at hp hq
    rw [NFA.mem_determinize_edges]
    simp only [subsetName_toNFA_eq_some_iff hD, braced_singleton_inj_iff]
    refine ⟨?_, fun he => ?_⟩
    · rintro ⟨_, ⟨_, _, rfl, rfl⟩, _, _, _, hstep, rfl⟩
      have he := step_singleton_eq_singleton_iff.1 hstep
      exact NFA.mem_restrict_edges.2 ⟨he, hp, hq⟩
    · have hedge := (NFA.mem_restrict_edges.1 he).1
      have hstep := step_singleton_eq_singleton_iff.2 hedge
      exact ⟨_, ⟨p, hp, rfl, rfl⟩, hD.symbol_mem _ hedge, q, hq, hstep, rfl⟩

/-- **Determinizing a deterministic automaton leaves out what cannot be reached and puts braces
around the names**, and does nothing else: no two names become equal, and none is primed. -/
theorem determinize_toNFA (hD : D.WellFormed) :
    D.toNFA.determinize = D.reachablePart.rename (fun q => braced [q]) ∧
      D.reachablePart.toNFA.Isomorphism (fun q => braced [q]) D.toNFA.determinize.toNFA := by
  have hiso := isomorphism_determinize_toNFA hD
  have hpart := wellFormed_reachablePart hD
  refine ⟨toNFA_injective ?_, hiso⟩
  rw [toNFA_rename hpart hiso.injOn]
  exact hiso.eq_rename hpart (NFA.wellFormed_determinize _)

/-- The names look like those of sets, and the state `lost` cannot be reached. -/
def bracedNames : DFA :=
  let moves := FunctionalRelation.ofList
    [⟨"1,2", 'a', "\x7b1\x7d"⟩, ⟨"\x7b1\x7d", 'a', "1,2"⟩, ⟨"\x7b1\x7d", 'b', "1,2'"⟩,
      ⟨"lost", 'a', "1,2"⟩]
  { states := FinSet.ofList ["1,2", "1,2'", "lost", "\x7b1\x7d"]
    alphabet := FinSet.ofList ['a', 'b']
    start := "1,2"
    finals := FinSet.ofList ["1,2'", "lost"]
    edges := moves.edges
    functional := moves.functional }

theorem bracedNames_determinize : bracedNames.WellFormed ∧
    bracedNames.toNFA.determinize = bracedNames.reachablePart.rename (fun q => braced [q]) ∧
    bracedNames.reachablePart.toNFA.Isomorphism (fun q => braced [q])
      bracedNames.toNFA.determinize.toNFA :=
  ⟨by decide, determinize_toNFA (by decide)⟩

end DFA

end Automata
