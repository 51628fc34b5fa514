import Automata.Proofs.CanonicalForm
import Automata.Proofs.Isomorphism
import Automata.Proofs.SearchLayers
import Mathlib

/-!
# The order in which states are numbered

States are numbered in the order in which the search from the start meets them.  The layers of the
search say that near states come first.  In a deterministic automaton a word leads to one state at
most, and then the numbers are the places of the least words that lead to the states.

## What is here

* `NFA.distance` — the length of a shortest tape that leads to a state.
* `NFA.distance_pairwise` — **no state is numbered before a nearer one**, and
  `NFA.spare_pairwise` — the states that cannot be reached are numbered by name.
* `DFA.LeastTape` — the least tape that leads to a state, and `DFA.getElem?_of_leastTape` — its
  place among the access words is the number of the state.
* `DFA.Alike.of_isomorphism` — isomorphic automata are alike, whatever their states are called.
* `numbering_breadthFirst` — what all of this says about the numbers.
-/

set_option autoImplicit false

namespace Automata

/-- In a list that ascends throughout, comparing entries is comparing places. -/
theorem rel_iff_lt_of_getElem? {α : Type} {R : α → α → Prop} (hR : ∀ a b, R a b → ¬ R b a)
    {l : List α} (hl : l.Pairwise R) {i j : Nat} {a b : α} (hi : l[i]? = some a)
    (hj : l[j]? = some b) : i < j ↔ R a b := by
  have hplace : ∀ {i j : Nat} {a b : α}, l[i]? = some a → l[j]? = some b → i < j → R a b := by
    intro i j a b hi hj hij
    obtain ⟨hi', rfl⟩ := List.getElem?_eq_some_iff.1 hi
    obtain ⟨hj', rfl⟩ := List.getElem?_eq_some_iff.1 hj
    exact List.pairwise_iff_getElem.1 hl i j hi' hj' hij
  refine ⟨hplace hi hj, fun hab => ?_⟩
  rcases Nat.lt_trichotomy i j with hij | rfl | hji
  · exact hij
  · have heq : a = b := Option.some_inj.1 (hi.symm.trans hj)
    subst heq
    exact absurd hab (hR _ _ hab)
  · exact absurd (hplace hj hi hji) (hR _ _ hab)

namespace NFA

variable {A : NFA} {p q : State} {w : List Char}

/-! ## Distances -/

/-- The length of a shortest tape that leads from the start to `q`, which is infinite if there is
no such tape. -/
noncomputable def distance (A : NFA) (q : State) : ℕ∞ :=
  ⨅ (w : List Char) (_ : A.Path A.start w q), (w.length : ℕ∞)

theorem distance_le_of_path (h : A.Path A.start w q) : A.distance q ≤ w.length := iInf₂_le w h

/-- A state is met along a shortest tape. -/
theorem distance_of_mem_discover {v : Visit State} (hv : v ∈ A.graph.discover A.start) :
    A.distance v.node = v.word.length := by
  refine le_antisymm (distance_le_of_path (walk_iff_path.1 (Graph.walk_of_mem_discover hv))) ?_
  refine le_iInf₂ fun w hw => ?_
  obtain ⟨u, hu, hun, hle⟩ := Graph.exists_visit_length_le (walk_iff_path.2 hw)
  have huv : u = v := List.inj_on_of_nodup_map (Graph.nodup_nodesFrom A.start) hu hv hun
  subst huv
  exact Nat.cast_le.2 hle

theorem distance_of_not_mem_reachable (h : q ∉ A.reachable) : A.distance q = ⊤ := by
  refine top_le_iff.1 (le_iInf₂ fun w hw => ?_)
  exact absurd (mem_reachable_iff.2 ⟨w, hw⟩) h

/-! ## The order of numbering -/

/-- The states that cannot be reached, in the order in which they are numbered. -/
def spare (A : NFA) : List State :=
  A.states.toList.filter fun q => decide (q ∉ A.graph.nodesFrom A.start)

theorem numberingOrder_eq (A : NFA) :
    A.numberingOrder = A.graph.nodesFrom A.start ++ A.spare := rfl

theorem not_mem_reachable_of_mem_spare (h : q ∈ A.spare) : q ∉ A.reachable := by
  simp only [spare, List.mem_filter, decide_eq_true_eq] at h
  simpa [reachable] using h.2

/-- **No state is numbered before a nearer one.** -/
theorem distance_pairwise (A : NFA) :
    A.numberingOrder.Pairwise fun p q => A.distance p ≤ A.distance q := by
  have hspare : ∀ {p q}, q ∈ A.spare → A.distance p ≤ A.distance q := fun hq =>
    (distance_of_not_mem_reachable (not_mem_reachable_of_mem_spare hq)).symm ▸ le_top
  rw [numberingOrder_eq]
  refine List.pairwise_append.2 ⟨?_, ?_, fun p _ q hq => hspare hq⟩
  · refine List.pairwise_map.2 ((Graph.discover_layered A.graph A.start).imp_of_mem ?_)
    intro u v hu hv hle
    rw [distance_of_mem_discover hu, distance_of_mem_discover hv]
    exact Nat.cast_le.2 hle
  · exact List.pairwise_of_forall_mem_list fun p _ q hq => hspare hq

/-- **The states that cannot be reached are numbered by name.** -/
theorem spare_pairwise (A : NFA) : A.spare.Pairwise (· < ·) :=
  (A.states.ascending.filter _).imp compare_lt_iff_lt.1

/-- The number of a state is its place in the order of numbering. -/
theorem get?_numbering {i : Nat} :
    A.numbering.get? q = some (toString i) ↔ A.numberingOrder[i]? = some q := by
  rw [numbering, get?_numberNames A.nodup_numberingOrder]
  constructor
  · rintro ⟨j, hj, hij⟩
    rwa [← eq_of_toString_eq hij]
  · exact fun hi => ⟨i, hi, rfl⟩

/-- The places of the states that cannot be reached come after those of the others. -/
theorem getElem?_spare {i : Nat} (hq : q ∉ A.reachable) (hi : A.numberingOrder[i]? = some q) :
    (A.graph.nodesFrom A.start).length ≤ i ∧
      A.spare[i - (A.graph.nodesFrom A.start).length]? = some q := by
  have hle : (A.graph.nodesFrom A.start).length ≤ i := by
    by_contra hlt
    rw [numberingOrder_eq, List.getElem?_append_left (Nat.lt_of_not_le hlt)] at hi
    exact hq (FinSet.mem_ofList.2 (List.mem_of_getElem? hi))
  refine ⟨hle, ?_⟩
  rwa [numberingOrder_eq, List.getElem?_append_right hle] at hi

end NFA

/-- The numbers of the states ascend with their distances from the start.  Those that cannot be
reached come last, in the order of their names. -/
structure FinMap.BreadthFirst (number : FinMap State State) (A : NFA) : Prop where
  /-- A state with a smaller number is no farther from the start. -/
  distance_le : ∀ p q, ∀ i j : Nat, number.get? p = some (toString i) →
    number.get? q = some (toString j) → i < j → A.distance p ≤ A.distance q
  /-- States that cannot be reached are numbered by name. -/
  spare_iff : ∀ p q, ∀ i j : Nat, p ∉ A.reachable → q ∉ A.reachable →
    number.get? p = some (toString i) → number.get? q = some (toString j) → (i < j ↔ p < q)

theorem NFA.breadthFirst_numbering (A : NFA) : A.numbering.BreadthFirst A where
  distance_le p q i j hp hq hij := by
    obtain ⟨hi, rfl⟩ := List.getElem?_eq_some_iff.1 (NFA.get?_numbering.1 hp)
    obtain ⟨hj, rfl⟩ := List.getElem?_eq_some_iff.1 (NFA.get?_numbering.1 hq)
    exact List.pairwise_iff_getElem.1 A.distance_pairwise i j hi hj hij
  spare_iff p q i j hp hq hi hj := by
    obtain ⟨hle, hi⟩ := NFA.getElem?_spare hp (NFA.get?_numbering.1 hi)
    obtain ⟨hle', hj⟩ := NFA.getElem?_spare hq (NFA.get?_numbering.1 hj)
    rw [← rel_iff_lt_of_getElem? (fun _ _ h => h.asymm) A.spare_pairwise hi hj]
    omega

namespace DFA

variable {D E : DFA} {f : State → State} {p q : State} {v w : List Char}

/-! ## Least tapes -/

/-- `w` leads from the start to `q`, and no earlier tape does. -/
structure LeastTape (D : DFA) (q : State) (w : List Char) : Prop where
  /-- The tape leads to the state. -/
  path : D.toNFA.Path D.start w q
  /-- All other tapes that do come later. -/
  least : ∀ v, D.toNFA.Path D.start v q → w = v ∨ Precedes w v

theorem leastTape_iff_mem_discover :
    D.LeastTape q w ↔ (⟨w, q⟩ : Visit State) ∈ D.graph.discover D.start := by
  rw [Graph.mem_discover_iff D.graph_ascending]
  simp only [NFA.walk_iff_path]
  exact ⟨fun h => ⟨h.path, h.least⟩, fun h => ⟨h.1, h.2⟩⟩

/-- Every state that can be reached has a least tape. -/
theorem exists_leastTape (hq : q ∈ D.reachable) : ∃ w, D.LeastTape q w := by
  obtain ⟨v, hv, rfl⟩ := List.mem_map.1 (FinSet.mem_ofList.1 hq)
  exact ⟨v.word, leastTape_iff_mem_discover.2 hv⟩

/-- **The number of a state is the place of its least tape.** -/
theorem getElem?_of_leastTape {i : Nat} (hw : D.LeastTape q w)
    (hi : D.numbering.get? q = some (toString i)) : D.accessWords[i]? = some w := by
  obtain ⟨j, hj⟩ := List.getElem?_of_mem (leastTape_iff_mem_discover.1 hw)
  have hword : D.accessWords[j]? = some w := by rw [accessWords, List.getElem?_map, hj]; rfl
  have hnumber := numbering_of_accessWord hword (after_eq_some_iff.2 hw.path)
  rw [FinMap.rename, hi, Option.getD_some] at hnumber
  rwa [eq_of_toString_eq hnumber]

/-- States with least tapes are numbered in the order of these. -/
theorem lt_iff_of_leastTape {i j : Nat} (hv : D.LeastTape p v) (hw : D.LeastTape q w)
    (hi : D.numbering.get? p = some (toString i)) (hj : D.numbering.get? q = some (toString j)) :
    i < j ↔ Precedes v w :=
  rel_iff_lt_of_getElem? (fun _ _ h => h.asymm) D.accessWords_ascending
    (getElem?_of_leastTape hv hi) (getElem?_of_leastTape hw hj)

/-! ## Isomorphic automata -/

/-- Words lead to images in an isomorphic automaton. -/
theorem after_of_isomorphism (hD : D.WellFormed) (hE : E.WellFormed)
    (h : D.Isomorphism f E.toNFA) (w : List Char) :
    E.after (some E.start) w = (D.after (some D.start) w).map f := by
  refine Option.ext fun r => ?_
  rw [after_eq_some_iff, ← h.start_eq, h.eq_rename hD hE,
    NFA.path_rename_iff hD h.injOn hD.start_mem, Option.map_eq_some_iff]
  simp only [after_eq_some_iff]

/-- **Isomorphic automata are alike**, as words know nothing of the names of states. -/
theorem Alike.of_isomorphism (hD : D.WellFormed) (hE : E.WellFormed)
    (h : D.Isomorphism f E.toNFA) : Alike D E := by
  refine ⟨fun w => ?_, fun v w => ?_⟩
  · rw [after_of_isomorphism hD hE h, Option.map_eq_none_iff]
  · rw [after_of_isomorphism hD hE h, after_of_isomorphism hD hE h]
    refine ⟨fun hvw => by rw [hvw], fun hvw => ?_⟩
    have hstate : ∀ {w q}, D.after (some D.start) w = some q → q ∈ D.states := fun hq =>
      (after_eq_some_iff.1 hq).mem_states hD hD.start_mem
    cases hv : D.after (some D.start) v with
    | none => simpa [hv, eq_comm] using hvw
    | some p =>
      rw [hv, Option.map_some, eq_comm, Option.map_eq_some_iff] at hvw
      obtain ⟨q, hq, hqp⟩ := hvw
      rw [hq, h.injOn (hstate hq) (hstate hv) hqp]

/-- Isomorphic automata that have no states to spare are equal once they are numbered. -/
theorem renumber_eq_of_isomorphism (hD : D.WellFormed) (hE : E.WellFormed)
    (hreach : ∀ q, q ∈ D.states → q ∈ D.reachable) (hreach' : ∀ q, q ∈ E.states → q ∈ E.reachable)
    (h : D.Isomorphism f E.toNFA) : D.renumber = E.renumber := by
  refine (Alike.of_isomorphism hD hE h).renumber_eq hD hE
    (fun q hq => mem_reachable_iff_after.1 (hreach q hq))
    (fun q hq => mem_reachable_iff_after.1 (hreach' q hq)) h.alphabet_eq fun w => ?_
  rw [Bool.eq_iff_iff, accepts_iff, accepts_iff, h.eq_rename hD hE,
    NFA.accepts_rename hD h.injOn]

end DFA

/-! ## What the numbers say -/

/-- **States are numbered breadth first.**  All of them get a number.  A state with a smaller number
is no farther from the start, and those that cannot be reached are numbered by name.  In a
deterministic automaton the order of the numbers is the order of the least tapes, so automata
without states to spare that are isomorphic are equal once they are numbered. -/
theorem numbering_breadthFirst :
    (∀ A : NFA, A.WellFormed →
      A.numbering.Numbers A.states ∧ A.numbering.BreadthFirst A) ∧
    (∀ D : DFA, D.WellFormed →
      D.numbering.Numbers D.states ∧ D.numbering.BreadthFirst D.toNFA ∧
        (∀ q, q ∈ D.reachable → ∃ w, D.LeastTape q w) ∧
        ∀ p q v w, ∀ i j : Nat, D.LeastTape p v → D.LeastTape q w →
          D.numbering.get? p = some (toString i) → D.numbering.get? q = some (toString j) →
          (i < j ↔ Precedes v w)) ∧
    ∀ (D E : DFA) (f : State → State), D.WellFormed → E.WellFormed →
      (∀ q, q ∈ D.states → q ∈ D.reachable) → (∀ q, q ∈ E.states → q ∈ E.reachable) →
      D.Isomorphism f E.toNFA → D.renumber = E.renumber := by
  refine ⟨fun A hA => ?_, fun D hD => ?_, fun D E f hD hE hreach hreach' h => ?_⟩
  · exact ⟨NFA.numbers_numbering hA, A.breadthFirst_numbering⟩
  · refine ⟨NFA.numbers_numbering hD, D.breadthFirst_numbering, fun q hq => ?_, ?_⟩
    · exact DFA.exists_leastTape hq
    · intro p q v w i j hv hw hi hj
      exact DFA.lt_iff_of_leastTape hv hw hi hj
  · exact DFA.renumber_eq_of_isomorphism hD hE hreach hreach' h

/-- Two ways lead to `x`, and nothing leads to `t` and `u`. -/
def crossing : DFA :=
  let moves := FunctionalRelation.ofList
    [⟨"s", 'a', "y"⟩, ⟨"s", 'b', "x"⟩, ⟨"y", 'a', "x"⟩, ⟨"x", 'a', "x"⟩, ⟨"u", 'a', "s"⟩]
  { states := FinSet.ofList ["s", "t", "u", "x", "y"]
    alphabet := FinSet.ofList ['a', 'b']
    start := "s"
    finals := FinSet.ofList ["x"]
    edges := moves.edges
    functional := moves.functional }

/-- Calls the start of `DFA.mergeable` by the name of another state. -/
def swapped (q : State) : State := if q = "s" then "p" else if q = "p" then "s" else q

/-- The name of `x` comes before the one of `y`, but its least tape does not. -/
theorem crossing_breadthFirst :
    (crossing.WellFormed ∧
      crossing.numbering.entries
        = [("s", "0"), ("t", "3"), ("u", "4"), ("x", "2"), ("y", "1")]) ∧
    (crossing.numbering.Numbers crossing.states ∧
      crossing.toNFA.distance "y" ≤ crossing.toNFA.distance "x" ∧ (3 < 4 ↔ "t" < "u")) ∧
    (crossing.LeastTape "y" ['a'] ∧ crossing.LeastTape "x" ['b'] ∧
      (∃ w, crossing.LeastTape "x" w) ∧ (1 < 2 ↔ Precedes ['a'] ['b'])) ∧
    DFA.mergeable.renumber = (DFA.mergeable.rename swapped).renumber := by
  have hC : crossing.WellFormed := by decide
  have ht : crossing.numbering.get? "t" = some (toString 3) := by cbv
  have hu : crossing.numbering.get? "u" = some (toString 4) := by cbv
  have hx : crossing.numbering.get? "x" = some (toString 2) := by cbv
  have hy : crossing.numbering.get? "y" = some (toString 1) := by cbv
  have hvisits : crossing.graph.discover crossing.start
      = [⟨[], "s"⟩, ⟨['a'], "y"⟩, ⟨['b'], "x"⟩] := by cbv
  have hreach : crossing.reachable = FinSet.ofList ["s", "x", "y"] := by cbv
  have hleastx : crossing.LeastTape "x" ['b'] :=
    DFA.leastTape_iff_mem_discover.2 (by rw [hvisits]; decide)
  have hleasty : crossing.LeastTape "y" ['a'] :=
    DFA.leastTape_iff_mem_discover.2 (by rw [hvisits]; decide)
  obtain ⟨_, hfirst⟩ := numbering_breadthFirst.1 crossing.toNFA hC
  obtain ⟨hnumbers, _, hleast, horder⟩ := numbering_breadthFirst.2.1 crossing hC
  have hM : DFA.mergeable.WellFormed := by decide
  have hall : DFA.mergeable.reachable = DFA.mergeable.states := by cbv
  have hall' : (DFA.mergeable.rename swapped).reachable
      = (DFA.mergeable.rename swapped).states := by cbv
  have hf : Set.InjOn swapped {q | q ∈ DFA.mergeable.states} := by
    have hall : ∀ p ∈ DFA.mergeable.states.toList, ∀ q ∈ DFA.mergeable.states.toList,
        swapped p = swapped q → p = q := by decide
    exact fun p hp q hq => hall p hp q hq
  have hiso : DFA.mergeable.Isomorphism swapped (DFA.mergeable.rename swapped).toNFA := by
    rw [DFA.toNFA_rename hM hf]
    exact NFA.isomorphism_rename hM hf
  refine ⟨⟨hC, by cbv⟩, ⟨hnumbers, hfirst.distance_le _ _ 1 2 hy hx (by decide), ?_⟩,
    ⟨hleasty, hleastx, hleast _ (by rw [hreach]; decide), ?_⟩, ?_⟩
  · exact hfirst.spare_iff _ _ 3 4 (by rw [hreach]; decide) (by rw [hreach]; decide) ht hu
  · exact horder _ _ _ _ 1 2 hleasty hleastx hy hx
  · exact numbering_breadthFirst.2.2 _ _ swapped hM (DFA.wellFormed_rename hM _)
      (fun q hq => hall ▸ hq) (fun q hq => hall' ▸ hq) hiso

end Automata
