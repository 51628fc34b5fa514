import Automata.Proofs.CanonicalForm
import Automata.Proofs.Isomorphism

/-!
# What the subset construction makes of renamed states

The states of a determinized automaton are called by the names of the states they consist of, and
primed where such names collide.  All of this hangs on what the states are called.  But the sets
themselves do not: the frontier of a renamed automaton is the renamed frontier, so words meet in one
determinized automaton exactly if they meet in the other.  Numbering then takes the names away.

## What is here

* `NFA.frontier_rename` — **the frontier of a renamed automaton is the renamed frontier.**
* `NFA.determinize_stuck_iff`, `NFA.determinize_meet_iff` — where words lead in a determinized
  automaton, in terms of frontiers, and `NFA.trim_determinize` — no state of it is to spare.
* `NFA.determinize_alike` — determinizing an automaton and a renamed copy of it gives automata that
  are alike.
* `NFA.determinize_forgets_names` — **isomorphic automata are equal once they are determinized and
  numbered.**
-/

set_option autoImplicit false

namespace Automata

/-! ## Images of sets of states -/

namespace FinSet

variable {f : State → State} {s t u : FinSet State}

@[simp] theorem map_singleton (f : State → State) (q : State) :
    (FinSet.singleton q).map f = FinSet.singleton (f q) := by
  refine ext fun p => ?_
  simp [eq_comm]

/-- The image of a set is empty only if the set is. -/
theorem isEmpty_map_iff : (s.map f).isEmpty = true ↔ s.isEmpty = true := by
  simp [isEmpty_iff]

/-- Sets of states that `f` keeps apart have different images. -/
theorem map_inj_of_injOn (hf : Set.InjOn f {q | q ∈ u}) (hs : ∀ q, q ∈ s → q ∈ u)
    (ht : ∀ q, q ∈ t → q ∈ u) : s.map f = t.map f ↔ s = t := by
  have hsub : ∀ {s t : FinSet State}, (∀ q, q ∈ s → q ∈ u) → (∀ q, q ∈ t → q ∈ u) →
      s.map f = t.map f → ∀ q, q ∈ s → q ∈ t := by
    intro s t hs ht h q hq
    obtain ⟨p, hp, hpq⟩ := mem_map.1 (h ▸ mem_map.2 ⟨q, hq, rfl⟩ : f q ∈ t.map f)
    exact hf (ht p hp) (hs q hq) hpq ▸ hp
  refine ⟨fun h => ext fun q => ⟨hsub hs ht h q, hsub ht hs h.symm q⟩, fun h => h ▸ rfl⟩

end FinSet

namespace NFA

variable {A B : NFA} {f : State → State} {v w : List Char}

/-! ## Renamed frontiers -/

theorem step_subset_states (hA : A.WellFormed) (s : FinSet State) (a : Char) :
    ∀ q, q ∈ A.step s a → q ∈ A.states := by
  intro q hq
  obtain ⟨p, _, he⟩ := mem_step.1 hq
  exact hA.target_mem _ he

/-- One step from a renamed set is the renamed step. -/
theorem step_rename (hA : A.WellFormed) (hf : Set.InjOn f {q | q ∈ A.states}) {s : FinSet State}
    (hs : ∀ q, q ∈ s → q ∈ A.states) (a : Char) :
    (A.rename f).step (s.map f) a = (A.step s a).map f := by
  refine FinSet.ext fun r => ?_
  rw [mem_step, FinSet.mem_map]
  refine ⟨?_, ?_⟩
  · rintro ⟨_, hq, he⟩
    obtain ⟨p, hp, rfl⟩ := FinSet.mem_map.1 hq
    obtain ⟨⟨p', _, q⟩, hd, heq⟩ := mem_rename_edges.1 he
    obtain ⟨hfp, rfl, rfl⟩ := Edge.mk.inj heq
    -- the edge leaves `p` itself, as no other state has its new name
    have hpp' : p' = p := hf (hA.source_mem _ hd) (hs p hp) hfp
    exact ⟨q, mem_step.2 ⟨p, hp, hpp' ▸ hd⟩, rfl⟩
  · rintro ⟨q, hq, rfl⟩
    obtain ⟨p, hp, he⟩ := mem_step.1 hq
    exact ⟨f p, FinSet.mem_map.2 ⟨p, hp, rfl⟩, mem_rename_edges.2 ⟨_, he, rfl⟩⟩

/-- **The frontier of a renamed automaton is the renamed frontier.** -/
theorem frontier_rename (hA : A.WellFormed) (hf : Set.InjOn f {q | q ∈ A.states})
    {s : FinSet State} (hs : ∀ q, q ∈ s → q ∈ A.states) (w : List Char) :
    (A.rename f).frontier (s.map f) w = (A.frontier s w).map f := by
  induction w generalizing s with
  | nil => rfl
  | cons a w ih =>
    rw [frontier_cons, frontier_cons, step_rename hA hf hs, ih (step_subset_states hA s a)]

/-- The states that are active after a tape that is read from the start. -/
def active (A : NFA) (tape : List Char) : FinSet State := A.frontier (FinSet.singleton A.start) tape

theorem active_subset_states (hA : A.WellFormed) (w : List Char) :
    ∀ q, q ∈ A.active w → q ∈ A.states := by
  intro q hq
  obtain ⟨p, hp, hpath⟩ := mem_frontier.1 hq
  exact hpath.mem_states hA (FinSet.mem_singleton.1 hp ▸ hA.start_mem)

theorem active_rename (hA : A.WellFormed) (hf : Set.InjOn f {q | q ∈ A.states}) (w : List Char) :
    (A.rename f).active w = (A.active w).map f := by
  have hstart : ∀ q, q ∈ FinSet.singleton A.start → q ∈ A.states := fun q hq =>
    FinSet.mem_singleton.1 hq ▸ hA.start_mem
  calc (A.rename f).active w
      = (A.rename f).frontier ((FinSet.singleton A.start).map f) w := by
        rw [FinSet.map_singleton]
        rfl
    _ = (A.active w).map f := frontier_rename hA hf hstart w

/-! ## Where words lead in a determinized automaton -/

theorem met_active (hA : A.WellFormed) (w : List Char) : A.Met (A.active w) :=
  met_frontier hA (.inr start_mem_subsets) w

/-- A word leads to the name of the set of states that are active after it. -/
theorem determinize_after_eq_subsetName (hA : A.WellFormed) (w : List Char) :
    A.determinize.after (some A.determinize.start) w = A.subsetName (A.active w) :=
  determinize_after hA w

/-- A word gets stuck exactly if no state is active after it. -/
theorem determinize_stuck_iff (hA : A.WellFormed) (w : List Char) :
    A.determinize.after (some A.determinize.start) w = none ↔ (A.active w).isEmpty = true := by
  rw [determinize_after_eq_subsetName hA]
  refine ⟨fun h => ?_, subsetName_of_isEmpty⟩
  rcases met_active hA w with hw | hw
  · exact hw
  · obtain ⟨q, hq⟩ := exists_subsetName hw
    simp [hq] at h

/-- Words meet exactly if the same states are active after them. -/
theorem determinize_meet_iff (hA : A.WellFormed) (v w : List Char) :
    A.determinize.after (some A.determinize.start) v
        = A.determinize.after (some A.determinize.start) w ↔ A.active v = A.active w := by
  refine ⟨fun h => ?_, fun h => ?_⟩
  · cases hv : A.determinize.after (some A.determinize.start) v with
    | none =>
      have hv' := FinSet.isEmpty_iff.1 ((determinize_stuck_iff hA v).1 hv)
      have hw' := FinSet.isEmpty_iff.1 ((determinize_stuck_iff hA w).1 (h ▸ hv))
      exact FinSet.ext fun q => ⟨fun hq => absurd hq (hv' q), fun hq => absurd hq (hw' q)⟩
    | some n =>
      have hw : A.determinize.after (some A.determinize.start) w = some n := h ▸ hv
      rw [determinize_after_eq_subsetName hA] at hv hw
      exact subsetName_inj hv hw
  · rw [determinize_after_eq_subsetName hA, determinize_after_eq_subsetName hA, h]

/-- A walk from set to set follows the frontier. -/
theorem frontier_of_walk {s t : FinSet State} (h : A.subsetGraph.Walk s w t) :
    A.frontier s w = t := by
  induction h with
  | nil => rfl
  | cons harc _ ih =>
    obtain ⟨_, _, rfl⟩ := mem_subsetGraph_arcs.1 harc
    exact ih

/-- Every state of a determinized automaton is the position after some word. -/
theorem trim_determinize (hA : A.WellFormed) : A.determinize.Trim := by
  intro q hq
  obtain ⟨⟨s, n⟩, hm, rfl⟩ := List.mem_map.1 (FinSet.mem_ofList.1 hq)
  have hs : A.subsetName s = some n := subsetName_eq_some_iff.2 hm
  obtain ⟨w, hw⟩ := Graph.mem_nodesFrom_iff.1 (mem_subsets_of_subsetName hs)
  refine ⟨w, ?_⟩
  rw [determinize_after_eq_subsetName hA, active, frontier_of_walk hw, hs]

/-! ## Names do not show -/

/-- Determinizing an automaton and a renamed copy of it gives automata that are alike. -/
theorem determinize_alike (hA : A.WellFormed) (hf : Set.InjOn f {q | q ∈ A.states}) :
    DFA.Alike A.determinize (A.rename f).determinize := by
  have hB := wellFormed_rename hA f
  refine ⟨fun w => ?_, fun v w => ?_⟩
  · rw [determinize_stuck_iff hA, determinize_stuck_iff hB, active_rename hA hf,
      FinSet.isEmpty_map_iff]
  · rw [determinize_meet_iff hA, determinize_meet_iff hB, active_rename hA hf, active_rename hA hf,
      FinSet.map_inj_of_injOn hf (active_subset_states hA v) (active_subset_states hA w)]

/-- Renaming states so that they stay apart is forgotten by determinization and numbering. -/
theorem determinize_renumber_rename (hA : A.WellFormed) (hf : Set.InjOn f {q | q ∈ A.states}) :
    A.determinize.renumber = (A.rename f).determinize.renumber := by
  have hB := wellFormed_rename hA f
  refine (determinize_alike hA hf).renumber_eq (wellFormed_determinize A)
    (wellFormed_determinize _) (trim_determinize hA) (trim_determinize hB) rfl fun w => ?_
  rw [accepts_determinize hA, accepts_determinize hB, Bool.eq_iff_iff, accepts_iff, accepts_iff,
    accepts_rename hA hf]

/-- **The names of states leave no trace in the determinized automaton once it is numbered.**
Isomorphic automata give equal ones, and numbering the states beforehand makes no difference. -/
theorem determinize_forgets_names :
    (∀ (A B : NFA) (f : State → State), A.WellFormed → B.WellFormed → A.Isomorphism f B →
      A.determinize.renumber = B.determinize.renumber) ∧
    ∀ A : NFA, A.WellFormed → A.renumber.determinize.renumber = A.determinize.renumber := by
  refine ⟨fun A B f hA hB h => ?_, fun A hA => ?_⟩
  · obtain ⟨hf, rfl⟩ := (isomorphism_iff hA hB).1 h
    exact determinize_renumber_rename hA hf
  · exact (determinize_renumber_rename hA (injOn_numbering hA)).symm

/-- Turns the names of `collidingNames` around, so that the sets of states after `a` and after `b`
no longer have one canonical name. -/
def respelled (q : State) : State :=
  if q = "1,2" then "1" else if q = "1" then "1,2" else if q = "2" then "\x7d" else "s"

theorem collidingNames_forgets_names :
    (collidingNames.WellFormed ∧ (collidingNames.rename respelled).WellFormed ∧
      collidingNames.Isomorphism respelled (collidingNames.rename respelled) ∧
      collidingNames.determinize.states
        = FinSet.ofList ["\x7b\x7d", "\x7b1,2\x7d", "\x7b1,2\x7d'"] ∧
      (collidingNames.rename respelled).determinize.states
        = FinSet.ofList ["\x7bs\x7d", "\x7b1\x7d", "\x7b1,2,\x7d\x7d"]) ∧
    collidingNames.determinize.renumber
      = (collidingNames.rename respelled).determinize.renumber ∧
    collidingNames.renumber.determinize.renumber = collidingNames.determinize.renumber := by
  have hA : collidingNames.WellFormed := by decide
  have hB : (collidingNames.rename respelled).WellFormed := by decide
  have hf : Set.InjOn respelled {q | q ∈ collidingNames.states} := by
    have hall : ∀ p ∈ collidingNames.states.toList, ∀ q ∈ collidingNames.states.toList,
        respelled p = respelled q → p = q := by decide
    exact fun p hp q hq => hall p hp q hq
  have hiso := isomorphism_rename hA hf
  exact ⟨⟨hA, hB, hiso, by cbv, by cbv⟩, determinize_forgets_names.1 _ _ _ hA hB hiso,
    determinize_forgets_names.2 _ hA⟩

end NFA

end Automata
