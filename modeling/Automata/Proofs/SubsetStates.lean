import Automata.Proofs.NameIndependence
import Automata.Proofs.Obtainable
import Automata.Proofs.PrimedNames
import Automata.Proofs.SearchLayers
import Mathlib

/-!
# The states of a determinized automaton

The search for sets of active states discovers a set exactly if some word makes it active and it is
not empty.  The names keep the sets apart, so that there is one state for each of them.

## What is here

* `NFA.mem_subsets_iff` — **the discovered sets are the non-empty ones that are active after some
  word**, and `NFA.length_subsets_le` — there are fewer of them than sets of states.
* `NFA.subsetName_of_split` — a set gets its canonical name with one prime for each earlier set of
  that name, and `NFA.subsetName_eq_braced` — none, if its canonical name is its own.
* `NFA.SubsetStates` — what this says about the states, the runs and the names of a determinized
  automaton; `NFA.subsetStates` — **every automaton that fits together satisfies it.**
-/

set_option autoImplicit false

namespace Automata

namespace NFA

variable {A : NFA} {s t : FinSet State} {n : State}

/-! ## Which sets are discovered -/

/-- The states that are active after a word are those that it leads to. -/
theorem mem_active {w : List Char} {q : State} : q ∈ A.active w ↔ A.Path A.start w q := by
  simp [active, mem_frontier]

/-- **The discovered sets are the non-empty ones that are active after some word.** -/
theorem mem_subsets_iff (hA : A.WellFormed) :
    s ∈ A.subsets ↔ s.isEmpty = false ∧ ∃ w, A.active w = s := by
  refine ⟨fun hs => ?_, ?_⟩
  · obtain ⟨w, hw⟩ := Graph.mem_nodesFrom_iff.1 hs
    exact ⟨isEmpty_of_mem_subsets hs, w, frontier_of_walk hw⟩
  · rintro ⟨hne, w, rfl⟩
    refine (met_active hA w).resolve_left fun he => ?_
    rw [he] at hne
    cases hne

/-- There are fewer discovered sets than sets of states, as the empty set is not discovered. -/
theorem length_subsets_le (hA : A.WellFormed) : A.subsets.length ≤ 2 ^ A.size - 1 := by
  let members (s : FinSet State) : Finset State := s.toList.toFinset
  have hinj : Function.Injective members := fun s t h =>
    FinSet.ext fun q => by simpa [members] using congrArg (q ∈ ·) h
  have hsub : (A.subsets.map members).toFinset ⊆ (members A.states).powerset.erase ∅ := by
    intro m hm
    obtain ⟨s, hs, rfl⟩ := List.mem_map.1 (List.mem_toFinset.1 hm)
    obtain ⟨hne, w, rfl⟩ := (mem_subsets_iff hA).1 hs
    refine Finset.mem_erase.2 ⟨fun he => ?_, Finset.mem_powerset.2 fun q hq => ?_⟩
    · exact FinSet.isEmpty_eq_false_iff.1 hne ((List.toFinset_eq_empty_iff _).1 he)
    · exact List.mem_toFinset.2 (active_subset_states hA w q (List.mem_toFinset.1 hq))
  calc A.subsets.length
      = (A.subsets.map members).toFinset.card := by
        rw [List.toFinset_card_of_nodup (nodup_subsets.map hinj), List.length_map]
    _ ≤ ((members A.states).powerset.erase ∅).card := Finset.card_le_card hsub
    _ = 2 ^ A.size - 1 := by
        rw [Finset.card_erase_of_mem (Finset.empty_mem_powerset _), Finset.card_powerset,
          List.toFinset_card_of_nodup A.states.nodup]
        rfl

/-! ## What they are called -/

/-- **A set gets its canonical name, with one prime for each set of that name that was discovered
before.** -/
theorem subsetName_of_split {earlier later : List (FinSet State)}
    (h : A.subsets = earlier ++ s :: later) :
    A.subsetName s = some (primed^[earlier.countP fun t => braced t.toList = braced s.toList]
      (braced s.toList)) := by
  let canonical (t : FinSet State) : State := braced t.toList
  have hsubset : A.subsets[earlier.length]? = some s := by simp [h]
  have hname : (supply [] (A.subsets.map canonical))[earlier.length]?
      = some (primed^[(earlier.map canonical).count (canonical s)] (canonical s)) := by
    have hreq : ∀ r ∈ A.subsets.map canonical, Unprimed r := by
      intro r hr
      obtain ⟨t, _, rfl⟩ := List.mem_map.1 hr
      exact unprimed_braced _
    rw [getElem?_supply granted_nil hreq]
    simp [h]
  have hcount : (earlier.map canonical).count (canonical s)
      = earlier.countP fun t => braced t.toList = braced s.toList :=
    count_map_eq_countP canonical earlier s
  rw [subsetName_eq_some_iff, namedSubsets, ← hcount]
  exact List.mem_of_getElem? (List.getElem?_zip_eq_some.2 ⟨hsubset, hname⟩)

/-- A set whose canonical name is its own is called by it. -/
theorem subsetName_eq_braced (hs : s ∈ A.subsets)
    (hown : ∀ t ∈ A.subsets, braced t.toList = braced s.toList → t = s) :
    A.subsetName s = some (braced s.toList) := by
  obtain ⟨earlier, later, h⟩ := List.append_of_mem hs
  have hnodup : (earlier ++ s :: later).Nodup := h ▸ nodup_subsets
  have hnone : (earlier.countP fun t => braced t.toList = braced s.toList) = 0 := by
    refine List.countP_eq_zero.2 fun t ht heq => ?_
    have hts := hown t (h ▸ List.mem_append_left _ ht) (of_decide_eq_true heq)
    exact (List.nodup_append.1 hnodup).2.2 t ht s List.mem_cons_self hts
  rw [subsetName_of_split h, hnone, Function.iterate_zero_apply]

/-- If no state has a comma in its name, no two sets have the same canonical name. -/
theorem eq_of_braced_eq (hA : A.WellFormed) (hcomma : ∀ q, q ∈ A.states → ',' ∉ q.toList)
    (hs : s ∈ A.subsets) (ht : t ∈ A.subsets) (h : braced s.toList = braced t.toList) : s = t := by
  have hmembers : ∀ {u}, u ∈ A.subsets → u.toList ≠ [] ∧ ∀ q ∈ u.toList, ',' ∉ q.toList := by
    intro u hu
    obtain ⟨hne, w, rfl⟩ := (mem_subsets_iff hA).1 hu
    exact ⟨FinSet.isEmpty_eq_false_iff.1 hne,
      fun q hq => hcomma q (active_subset_states hA w q hq)⟩
  refine FinSet.eq_of_toList_eq ((braced_inj_iff ?_ ?_ ?_ ?_).1 h)
  · exact (hmembers hs).2
  · exact (hmembers ht).2
  · exact (hmembers hs).1
  · exact (hmembers ht).1

/-! ## The states of the determinized automaton -/

theorem mem_determinize_states : n ∈ A.determinize.states ↔ ∃ s, A.subsetName s = some n := by
  have hstates : A.determinize.states = FinSet.ofList (A.namedSubsets.map Prod.snd) := rfl
  simp [hstates, subsetName_eq_some_iff]

/-- There is one state for each discovered set. -/
theorem size_determinize (A : NFA) : A.determinize.size = A.subsets.length := by
  have hsize : (A.namedSubsets.map Prod.snd).length = A.determinize.size :=
    FinSet.length_eq_size A.naming_namedSubsets.names_nodup fun _ => FinSet.mem_ofList.symm
  rw [← hsize, ← map_fst_namedSubsets, List.length_map, List.length_map]

/-- Every state is reachable. -/
theorem reachable_determinize (hA : A.WellFormed) :
    A.determinize.reachable = A.determinize.states := by
  refine FinSet.ext fun n => ⟨reachable_subset (wellFormed_determinize A), fun hn => ?_⟩
  exact DFA.mem_reachable_iff_after.2 (trim_determinize hA n hn)

/-- A run that reads its word ends in the name of the set that is active then. -/
theorem getLast?_run_determinize (hA : A.WellFormed) {w : List Char} {l : List State}
    (h : A.determinize.run w = .complete l) : l.getLast? = A.subsetName (A.active w) := by
  obtain ⟨p, hlast, hp⟩ := DFA.after_of_runFrom_complete h
  rw [hlast, ← hp, determinize_after_eq_subsetName hA]

/-- What the states of the determinized automaton are, how they are called, and how it runs. -/
structure SubsetStates (A : NFA) : Prop where
  /-- The queue of the search runs empty after one round for each state. -/
  rounds_iff : ∀ k, (A.subsetGraph.round^[k]
    ([FinSet.singleton A.start], [⟨[], FinSet.singleton A.start⟩])).2 = [] ↔
      A.determinize.size ≤ k
  /-- There are at most as many states as sets of states other than the empty one. -/
  size_le : A.determinize.size ≤ 2 ^ A.size - 1
  /-- The states that are active after a word are those that it leads to. -/
  active_iff : ∀ w q, q ∈ A.active w ↔ A.Path A.start w q
  /-- The sets with a name are the non-empty ones that are active after some word. -/
  named_iff : ∀ s, (∃ n, A.subsetName s = some n) ↔ s.isEmpty = false ∧ ∃ w, A.active w = s
  /-- The states are the names. -/
  state_iff : ∀ n, n ∈ A.determinize.states ↔ ∃ s, A.subsetName s = some n
  /-- No two sets have the same name. -/
  injective : ∀ s t n, A.subsetName s = some n → A.subsetName t = some n → s = t
  /-- Every state is reachable. -/
  reachable_eq : A.determinize.reachable = A.determinize.states
  /-- A run that reads its word ends in the name of the set that is active then. -/
  run_ends : ∀ w l, A.determinize.run w = .complete l → l.getLast? = A.subsetName (A.active w)
  /-- A run gets stuck if nothing is active after its word, and not otherwise. -/
  run_stuck_iff : ∀ w, (∃ l, A.determinize.run w = .stuck l) ↔ (A.active w).isEmpty = true
  /-- A set is called by its canonical name, with one prime for each set of that name that was
  discovered before. -/
  name_eq : ∀ earlier s later, A.subsets = earlier ++ s :: later →
    A.subsetName s = some (primed^[earlier.countP fun t => braced t.toList = braced s.toList]
      (braced s.toList))
  /-- If no state has a comma in its name, there are no primes. -/
  unprimed : (∀ q, q ∈ A.states → ',' ∉ q.toList) →
    ∀ s n, A.subsetName s = some n → n = braced s.toList

/-- **The states of a determinized automaton are the non-empty sets that are active after some
word**, one for each of them. -/
theorem subsetStates (hA : A.WellFormed) : A.SubsetStates where
  rounds_iff k := by
    rw [Graph.iterate_round_eq_nil_iff, size_determinize, subsets, Graph.nodesFrom, List.length_map,
      Graph.discover]
  size_le := size_determinize A ▸ length_subsets_le hA
  active_iff _ _ := mem_active
  named_iff s := by
    rw [← mem_subsets_iff hA]
    refine ⟨fun h => ?_, exists_subsetName⟩
    obtain ⟨n, hn⟩ := h
    exact mem_subsets_of_subsetName hn
  state_iff _ := mem_determinize_states
  injective _ _ _ := subsetName_inj
  reachable_eq := reachable_determinize hA
  run_ends _ _ := getLast?_run_determinize hA
  run_stuck_iff w := DFA.run_stuck_iff.trans (determinize_stuck_iff hA w)
  name_eq _ _ _ := subsetName_of_split
  unprimed hcomma s n hn := by
    have hs := mem_subsets_of_subsetName hn
    rw [subsetName_eq_braced hs fun t ht h => eq_of_braced_eq hA hcomma ht hs h] at hn
    exact (Option.some_inj.1 hn).symm

/-- In the first automaton two sets share a canonical name, in the second one no name has a
comma. -/
theorem collidingNames_subsetStates :
    (collidingNames.WellFormed ∧ collidingNames.SubsetStates) ∧
      branching.WellFormed ∧ (∀ q ∈ branching.states.toList, ',' ∉ q.toList) ∧
      branching.SubsetStates :=
  ⟨⟨by decide, subsetStates (by decide)⟩, by decide, by decide, subsetStates (by decide)⟩

end NFA

end Automata
