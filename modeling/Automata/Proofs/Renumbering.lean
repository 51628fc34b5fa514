import Automata.Proofs.Naming
import Automata.Proofs.Reachability
import Automata.Proofs.Relations
import Automata.Renumbering
import Mathlib.Data.Set.Function

/-!
# Numbered states

Numbering replaces every state by the decimal name of its place in a list of all states, so that no
two states get the same name.  Then nothing but names changes.

## What is here

* `NFA.rename_numbering` — the new name of a state is its place in the order of numbering.
* `NFA.injOn_numbering` — different states get different numbers.
* `NFA.wellFormed_rename`, `DFA.wellFormed_rename` — what is renamed still fits together.
* `NFA.accepts_rename` — a renaming that keeps states apart keeps the language.
* `DFA.toNFA_rename` — such a renaming loses no edge of a deterministic automaton either.
* `DFA.accepts_renumber` — **numbering keeps the language.**
-/

set_option autoImplicit false

namespace Automata

/-! ## The numbers -/

/-- A number can be read off its decimal name. -/
theorem eq_of_toString_eq {i j : Nat} (h : toString i = toString j) : i = j := by
  have hdigits : Nat.toDigits 10 i = Nat.toDigits 10 j := by
    rw [← Nat.toList_repr, ← Nat.toList_repr]
    exact congrArg String.toList h
  rw [← Nat.ofDigitChars_ten_toDigits (n := i), hdigits, Nat.ofDigitChars_ten_toDigits]

/-- Every entry of a list without repetition is named by its place. -/
theorem naming_places {order : List State} (h : order.Nodup) :
    Naming (order.zipIdx.map fun (q, i) => (q, toString i)) := by
  refine ⟨?_, ?_⟩
  · rw [List.map_map]
    exact (List.zipIdx_map_fst 0 order).symm ▸ h
  · have hplaces : (order.zipIdx.map Prod.snd).Nodup := by
      rw [List.zipIdx_map_snd]
      exact List.nodup_range'
    have hnames := hplaces.map (f := fun i : Nat => toString i) fun _ _ => eq_of_toString_eq
    rw [List.map_map] at hnames ⊢
    exact hnames

theorem Naming.reverse {α : Type} {l : List (α × State)} (h : Naming l) : Naming l.reverse :=
  ⟨List.map_reverse ▸ List.nodup_reverse.2 h.things_nodup,
    List.map_reverse ▸ List.nodup_reverse.2 h.names_nodup⟩

theorem get?_numberNames {order : List State} (h : order.Nodup) {q n : State} :
    (numberNames order).get? q = some n ↔ ∃ i : Nat, order[i]? = some q ∧ toString i = n := by
  rw [numberNames, FinMap.get?_ofList, (naming_places h).reverse.lookup_eq_some_iff,
    List.mem_reverse, List.mem_map]
  refine ⟨?_, ?_⟩
  · rintro ⟨⟨p, i⟩, hmem, heq⟩
    cases heq
    exact ⟨i, List.mem_zipIdx_iff_getElem?.1 hmem, rfl⟩
  · rintro ⟨i, hi, rfl⟩
    exact ⟨(q, i), List.mem_zipIdx_iff_getElem?.2 hi, rfl⟩

theorem rename_numberNames {order : List State} (h : order.Nodup) {q : State} {i : Nat}
    (hi : order[i]? = some q) : (numberNames order).rename q = toString i := by
  rw [FinMap.rename, (get?_numberNames h).2 ⟨i, hi, rfl⟩, Option.getD_some]

namespace NFA

variable {A : NFA}

/-- No state is numbered twice. -/
theorem nodup_numberingOrder (A : NFA) : A.numberingOrder.Nodup := by
  refine (Graph.nodup_nodesFrom A.start).append (A.states.nodup.filter _) fun q hq hq' => ?_
  exact of_decide_eq_true (List.mem_filter.1 hq').2 hq

/-- All states are numbered, and nothing else. -/
theorem mem_numberingOrder (hA : A.WellFormed) {q : State} :
    q ∈ A.numberingOrder ↔ q ∈ A.states := by
  have hfound : q ∈ A.graph.nodesFrom A.start → q ∈ A.states := fun h =>
    reachable_subset hA (FinSet.mem_ofList.2 h)
  rw [numberingOrder, List.mem_append, List.mem_filter, decide_eq_true_iff, FinSet.mem_toList]
  refine ⟨?_, fun hq => ?_⟩
  · rintro (h | ⟨h, _⟩)
    · exact hfound h
    · exact h
  · exact (Classical.em _).imp_right fun h => ⟨hq, h⟩

/-- The new name of a state is its place in the order of numbering. -/
theorem rename_numbering {q : State} {i : Nat} (h : A.numberingOrder[i]? = some q) :
    A.numbering.rename q = toString i := rename_numberNames A.nodup_numberingOrder h

/-- Different states get different numbers. -/
theorem injOn_numbering (hA : A.WellFormed) : Set.InjOn A.numbering.rename {q | q ∈ A.states} := by
  intro p hp q hq hpq
  obtain ⟨i, hi⟩ := List.getElem?_of_mem ((mem_numberingOrder hA).2 hp)
  obtain ⟨j, hj⟩ := List.getElem?_of_mem ((mem_numberingOrder hA).2 hq)
  rw [rename_numbering hi, rename_numbering hj] at hpq
  have hij : i = j := eq_of_toString_eq hpq
  rw [hij, hj] at hi
  exact (Option.some_inj.1 hi).symm

/-! ## Renaming -/

variable {f : State → State}

theorem mem_rename_edges {e : Edge} :
    e ∈ (A.rename f).edges ↔ ∃ e', e' ∈ A.edges ∧ e'.map f = e := FinSet.mem_map

/-- The images of states, finals and edges fit together as these do. -/
theorem wellFormed_rename (hA : A.WellFormed) (f : State → State) : (A.rename f).WellFormed := by
  have hstate : ∀ {q}, q ∈ A.states → f q ∈ (A.rename f).states := fun hq =>
    FinSet.mem_map.2 ⟨_, hq, rfl⟩
  refine wellFormed_iff.2 ⟨hstate hA.start_mem, fun q hq => ?_, fun e he => ?_⟩
  · obtain ⟨p, hp, rfl⟩ := FinSet.mem_map.1 hq
    exact hstate (hA.finals_subset p hp)
  · obtain ⟨d, hd, rfl⟩ := FinSet.mem_map.1 he
    exact ⟨hstate (hA.source_mem d hd), hA.symbol_mem d hd, hstate (hA.target_mem d hd)⟩

/-- Paths between renamed states are renamed paths. -/
theorem path_rename_iff (hA : A.WellFormed) (hf : Set.InjOn f {q | q ∈ A.states}) {p r : State}
    {w : List Char} (hp : p ∈ A.states) :
    (A.rename f).Path (f p) w r ↔ ∃ q, A.Path p w q ∧ f q = r := by
  induction w generalizing p with
  | nil =>
    refine ⟨fun h => ?_, ?_⟩
    · cases h
      exact ⟨p, .nil p, rfl⟩
    · rintro ⟨q, h, rfl⟩
      cases h
      exact .nil _
  | cons a w ih =>
    rw [path_cons_iff]
    refine ⟨?_, ?_⟩
    · rintro ⟨_, he, h⟩
      obtain ⟨⟨p', _, q⟩, hedge, heq⟩ := mem_rename_edges.1 he
      obtain ⟨hfp, rfl, rfl⟩ := Edge.mk.inj heq
      -- the edge leaves `p` itself, as no other state has its new name
      have hp' : p' = p := hf (hA.source_mem _ hedge) hp hfp
      obtain ⟨r, hr, rfl⟩ := (ih (hA.target_mem _ hedge)).1 h
      exact ⟨r, .cons (hp' ▸ hedge) hr, rfl⟩
    · rintro ⟨r, h, rfl⟩
      obtain ⟨q, he, h⟩ := path_cons_iff.1 h
      exact ⟨f q, mem_rename_edges.2 ⟨_, he, rfl⟩, (ih (hA.target_mem _ he)).2 ⟨r, h, rfl⟩⟩

/-- A renaming that keeps states apart keeps the language. -/
theorem accepts_rename (hA : A.WellFormed) (hf : Set.InjOn f {q | q ∈ A.states})
    (w : List Char) : (A.rename f).Accepts w ↔ A.Accepts w := by
  refine ⟨?_, ?_⟩
  · rintro ⟨r, hpath, hr⟩
    obtain ⟨q, hq, rfl⟩ := (path_rename_iff hA hf hA.start_mem).1 hpath
    obtain ⟨q', hq', heq⟩ := FinSet.mem_map.1 hr
    have hqq' : q' = q := hf (hA.finals_subset q' hq') (hq.mem_states hA hA.start_mem) heq
    exact ⟨q, hq, hqq' ▸ hq'⟩
  · rintro ⟨q, hpath, hq⟩
    exact ⟨f q, (path_rename_iff hA hf hA.start_mem).2 ⟨q, hpath, rfl⟩,
      FinSet.mem_map.2 ⟨q, hq, rfl⟩⟩

end NFA

namespace DFA

variable {D : DFA} {f : State → State}

/-- Edges that compete after the renaming are lost, and this does no harm. -/
theorem wellFormed_rename (hD : D.WellFormed) (f : State → State) : (D.rename f).WellFormed := by
  have hA := NFA.wellFormed_rename hD f
  have hedges : ∀ e, e ∈ (D.rename f).edges → e ∈ (D.toNFA.rename f).edges := fun e he =>
    FinSet.mem_ofList.2 (FunctionalRelation.mem_of_mem_ofList he)
  exact ⟨hA.start_mem, hA.finals_subset, fun e he => hA.source_mem e (hedges e he),
    fun e he => hA.target_mem e (hedges e he), fun e he => hA.symbol_mem e (hedges e he)⟩

/-- A renaming that keeps states apart loses no edge, as no two edges come to compete. -/
theorem toNFA_rename (hD : D.WellFormed) (hf : Set.InjOn f {q | q ∈ D.states}) :
    (D.rename f).toNFA = D.toNFA.rename f := by
  have hedges : (D.rename f).edges = (D.toNFA.rename f).edges := by
    refine FinSet.ext fun e => ?_
    rw [NFA.mem_rename_edges]
    refine (FunctionalRelation.mem_ofList_iff ?_).trans List.mem_map
    intro e he e' he' hsource hsymbol
    obtain ⟨d, hd, rfl⟩ := List.mem_map.1 he
    obtain ⟨d', hd', rfl⟩ := List.mem_map.1 he'
    have hdd' := hf (hD.source_mem d hd) (hD.source_mem d' hd') hsource
    rw [D.functional d hd d' hd' hdd' hsymbol]
  calc (D.rename f).toNFA = { D.toNFA.rename f with edges := (D.rename f).edges } := rfl
    _ = D.toNFA.rename f := by rw [hedges]

/-- Numbering keeps the language. -/
theorem accepts_renumber (hD : D.WellFormed) (w : List Char) :
    D.renumber.accepts w = D.accepts w := by
  have hf := NFA.injOn_numbering hD
  rw [Bool.eq_iff_iff, accepts_iff, accepts_iff, renumber, toNFA_rename hD hf]
  exact NFA.accepts_rename hD hf w

end DFA

end Automata
