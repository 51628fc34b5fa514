import Automata.Proofs.NumberingOrder
import Automata.Proofs.Obtainable
import Mathlib

/-!
# Numbering the states again

Names are compared as texts, and so are numbers once they are names: `10` comes before `2`.  An
automaton whose states are numbers already is numbered differently if the search looks at two such
names side by side.  It does so in two places only, namely where it first meets several states in
one move, and where states are left over that it does not meet at all.

## What is here

* `NFA.place` — the number of a state, and `NFA.Discovers` — the edge along which the search first
  meets its target.
* `NFA.NamesAscend` — no name that is a smaller number comes after one that is a greater number
  where the search looks at both.
* `NFA.numberingOrder_renumber` — **then the numbered automaton is searched in the same order**, and
  `numbering_again` — so numbering it again changes nothing.
* `fan_renumber_ne` — with eleven states it may change something.
-/

set_option autoImplicit false

namespace Automata

/-! ## Visits of states -/

namespace Visit

/-- The visit of a renamed state. -/
def rename (f : State → State) (v : Visit State) : Visit State := ⟨v.word, f v.node⟩

/-- In which order the search lists what one move leads to: by word, and then by name. -/
def ListedBefore (u v : Visit State) : Prop :=
  Precedes u.word v.word ∨ u.word = v.word ∧ u.node < v.node

theorem ListedBefore.asymm {u v : Visit State} (h : ListedBefore u v) : ¬ ListedBefore v u := by
  rcases h with h | ⟨heq, h⟩ <;> rintro (h' | ⟨heq', h'⟩)
  · exact h.asymm h'
  · exact (heq' ▸ h).asymm (heq' ▸ h)
  · exact (heq ▸ h').asymm (heq ▸ h')
  · exact h.asymm h'

instance : Std.Asymm ListedBefore := ⟨fun _ _ => ListedBefore.asymm⟩

theorem map_node_rename (f : State → State) (l : List (Visit State)) :
    (l.map (rename f)).map node = (l.map node).map f := by
  simp [rename, Function.comp_def]

end Visit

namespace NFA

variable {A : NFA} {f : State → State} {p q : State} {seen : List State} {u v : Visit State}

/-! ## Places -/

/-- The number of a state: its place in the order of numbering. -/
def place (A : NFA) (q : State) : Nat := A.numberingOrder.idxOf q

theorem place_eq_of_getElem? {i : Nat} (h : A.numberingOrder[i]? = some q) : A.place q = i := by
  obtain ⟨hi, rfl⟩ := List.getElem?_eq_some_iff.1 h
  exact A.nodup_numberingOrder.idxOf_getElem i hi

theorem getElem?_place (hA : A.WellFormed) (hq : q ∈ A.states) :
    A.numberingOrder[A.place q]? = some q := by
  obtain ⟨i, hi⟩ := List.getElem?_of_mem ((mem_numberingOrder hA).2 hq)
  rwa [place_eq_of_getElem? hi]

/-- The new name of a state is its number. -/
theorem rename_eq_toString_place (hA : A.WellFormed) (hq : q ∈ A.states) :
    A.numbering.rename q = toString (A.place q) := rename_numbering (getElem?_place hA hq)

theorem place_lt_size (hA : A.WellFormed) (hq : q ∈ A.states) : A.place q < A.size := by
  have hlength : A.numberingOrder.length = A.size :=
    FinSet.length_eq_size A.nodup_numberingOrder fun _ => mem_numberingOrder hA
  rw [← hlength]
  exact (List.getElem?_eq_some_iff.1 (getElem?_place hA hq)).1

/-- Places ascend in the order of numbering. -/
theorem place_pairwise (A : NFA) : A.numberingOrder.Pairwise fun p q => A.place p < A.place q := by
  refine List.pairwise_iff_getElem.2 fun i j hi hj hij => ?_
  rwa [place_eq_of_getElem? (List.getElem?_eq_getElem hi),
    place_eq_of_getElem? (List.getElem?_eq_getElem hj)]

/-! ## Where names are looked at -/

/-- The search first meets the target of the edge when it follows this edge.  The target is not the
start, and every other edge that leads to it leaves a state with a greater number, or the same state
along a greater symbol. -/
structure Discovers (A : NFA) (e : Edge) : Prop where
  /-- The edge is one of the automaton. -/
  mem : e ∈ A.edges
  /-- The search gets to the edge. -/
  source_mem : e.source ∈ A.reachable
  /-- The search begins at the start and does not discover it. -/
  target_ne : e.target ≠ A.start
  /-- Other edges to the target are followed later. -/
  first : ∀ d, d ∈ A.edges → d.target = e.target → A.place e.source < A.place d.source ∨
    A.place e.source = A.place d.source ∧ e.symbol ≤ d.symbol

/-- Where the search looks at two numbers as names, the smaller number is the smaller name. -/
structure NamesAscend (A : NFA) : Prop where
  /-- States that are first met in one move. -/
  siblings : ∀ d e, A.Discovers d → A.Discovers e → d.source = e.source → d.symbol = e.symbol →
    A.place d.target < A.place e.target →
      toString (A.place d.target) < toString (A.place e.target)
  /-- States that are not met. -/
  spare : ∀ p q, p ∈ A.spare → q ∈ A.spare → A.place p < A.place q →
    toString (A.place p) < toString (A.place q)

/-! ## What one move leads to -/

theorem extend_pairwise (A : NFA) (v : Visit State) :
    (A.graph.extend v).Pairwise Visit.ListedBefore := by
  rw [Graph.extend, graph, List.map_map]
  refine List.pairwise_map.2 (List.Pairwise.imp_of_mem ?_ (A.edges.ascending.filter _))
  intro e f he hf hlt
  simp only [List.mem_filter, decide_eq_true_eq] at he hf
  rcases Edge.lt_of_compare_eq_lt (he.2.trans hf.2.symm) hlt with hlt | ⟨heq, hlt⟩
  · exact .inl (.concat_of_lt v.word hlt)
  · exact .inr ⟨by simp [heq], hlt⟩

/-- What a round adds to the queue: each state that is not seen yet, along the least symbol that
leads to it. -/
theorem mem_new_iff :
    u ∈ Graph.firsts seen (A.graph.extend v) ↔ u.node ∉ seen ∧ ∃ c, u.word = v.word ++ [c] ∧
      (⟨v.node, c, u.node⟩ : Edge) ∈ A.edges ∧
        ∀ c', (⟨v.node, c', u.node⟩ : Edge) ∈ A.edges → c ≤ c' := by
  have hmem : ∀ x : Visit State, x ∈ A.graph.extend v ↔
      ∃ c, x.word = v.word ++ [c] ∧ (⟨v.node, c, x.node⟩ : Edge) ∈ A.edges := by
    rintro ⟨w, p⟩
    simp only [Graph.mem_extend, Prod.exists, mem_graph_arcs, Visit.mk.injEq]
    constructor
    · rintro ⟨c, _, he, rfl, rfl⟩
      exact ⟨c, rfl, he⟩
    · rintro ⟨c, rfl, he⟩
      exact ⟨c, p, he, rfl, rfl⟩
  rw [Graph.mem_firsts_iff (fun _ _ h => h.asymm) (A.extend_pairwise v), hmem]
  constructor
  · rintro ⟨⟨c, hword, he⟩, hseen, hfirst⟩
    refine ⟨hseen, c, hword, he, fun c' he' => ?_⟩
    rcases hfirst ⟨v.word ++ [c'], u.node⟩ ((hmem _).2 ⟨c', rfl, he'⟩) rfl with heq | hlt | ⟨heq, _⟩
    · exact le_of_eq (by simpa [hword] using congrArg Visit.word heq)
    · rw [hword] at hlt
      exact ((Precedes.concat_iff _).1 hlt).le
    · exact le_of_eq (by simpa [hword] using heq)
  · rintro ⟨hseen, c, hword, he, hleast⟩
    refine ⟨⟨c, hword, he⟩, hseen, fun x hx hxu => ?_⟩
    obtain ⟨c', hword', he'⟩ := (hmem x).1 hx
    rcases (hleast c' (hxu ▸ he')).eq_or_lt with rfl | hlt
    · cases x
      cases u
      simp_all
    · refine .inr (.inl ?_)
      rw [hword, hword']
      exact .concat_of_lt _ hlt

/-- The image of a state is among images only if the state is among what they are images of. -/
theorem mem_map_iff_of_injOn (hf : Set.InjOn f {q | q ∈ A.states}) {l : List State}
    (hl : ∀ q ∈ l, q ∈ A.states) (hp : p ∈ A.states) : f p ∈ l.map f ↔ p ∈ l := by
  refine ⟨fun h => ?_, List.mem_map_of_mem⟩
  obtain ⟨q, hq, hqp⟩ := List.mem_map.1 h
  exact hf (hl q hq) hp hqp ▸ hq

/-- What one move leads to in a renamed automaton. -/
theorem mem_new_rename_iff (hA : A.WellFormed) (hf : Set.InjOn f {q | q ∈ A.states})
    (hseen : ∀ q ∈ seen, q ∈ A.states) (hv : v.node ∈ A.states) :
    u ∈ Graph.firsts (seen.map f) ((A.rename f).graph.extend (v.rename f)) ↔
      u ∈ (Graph.firsts seen (A.graph.extend v)).map (Visit.rename f) := by
  have hmem : ∀ {p}, p ∈ A.states → (f p ∈ seen.map f ↔ p ∈ seen) :=
    mem_map_iff_of_injOn hf hseen
  have hedge : ∀ {p c}, p ∈ A.states → ((⟨f v.node, c, f p⟩ : Edge) ∈ (A.rename f).edges ↔
      (⟨v.node, c, p⟩ : Edge) ∈ A.edges) := fun hp => mem_rename_edges_iff hA hf hv hp
  rw [mem_new_iff]
  constructor
  · rintro ⟨hnew, c, hword, he, hleast⟩
    obtain ⟨⟨_, _, p⟩, hd, heq⟩ := mem_rename_edges.1 he
    have hp := hA.target_mem _ hd
    have hup : f p = u.node := (Edge.mk.inj heq).2.2
    rw [← hup] at hnew he hleast
    refine List.mem_map.2 ⟨⟨u.word, p⟩,
      mem_new_iff.2 ⟨mt (hmem hp).2 hnew, c, hword, (hedge hp).1 he, ?_⟩, ?_⟩
    · exact fun c' he' => hleast c' ((hedge hp).2 he')
    · rw [Visit.rename, hup]
  · intro h
    obtain ⟨x, hx, rfl⟩ := List.mem_map.1 h
    obtain ⟨hnew, c, hword, he, hleast⟩ := mem_new_iff.1 hx
    have hp := hA.target_mem _ he
    exact ⟨mt (hmem hp).1 hnew, c, hword, (hedge hp).2 he,
      fun c' he' => hleast c' ((hedge hp).1 he')⟩

/-! ## The two searches side by side -/

/-- What holds of the search from the start all the time, where `done` are the states that have been
served: they come first in the order of numbering, and all that follows from them is seen. -/
structure Midway (A : NFA) (done seen : List State) (queue : List (Visit State)) : Prop where
  /-- The states to come complete the order. -/
  order_eq : A.graph.nodesFrom A.start = done ++ (A.graph.explore seen queue).map Visit.node
  /-- The start is seen from the beginning. -/
  start_mem : A.start ∈ seen
  /-- Only what can be reached is seen. -/
  seen_reachable : ∀ q ∈ seen, q ∈ A.reachable
  /-- What waits in the queue is seen. -/
  queue_seen : ∀ v ∈ queue, v.node ∈ seen
  /-- What follows from a served state is seen. -/
  served : ∀ e, e ∈ A.edges → e.source ∈ done → e.target ∈ seen

theorem midway_start (A : NFA) : A.Midway [] [A.start] [⟨[], A.start⟩] where
  order_eq := rfl
  start_mem := List.mem_singleton_self _
  seen_reachable := by simp [start_mem_reachable]
  queue_seen := by simp
  served := by simp

namespace Midway

variable {done : List State} {queue : List (Visit State)}

/-- A round serves the first state of the queue. -/
theorem next (h : A.Midway done seen (v :: queue)) :
    A.Midway (done ++ [v.node])
      ((Graph.firsts seen (A.graph.extend v)).map Visit.node ++ seen)
      (queue ++ Graph.firsts seen (A.graph.extend v)) where
  order_eq := by
    rw [h.order_eq, Graph.explore]
    simp
  start_mem := List.mem_append_right _ h.start_mem
  seen_reachable q hq := by
    rcases List.mem_append.1 hq with hq | hq
    · obtain ⟨u, hu, rfl⟩ := List.mem_map.1 hq
      obtain ⟨_, c, _, he, _⟩ := mem_new_iff.1 hu
      exact reachable_closed (h.seen_reachable _ (h.queue_seen v List.mem_cons_self)) he
    · exact h.seen_reachable q hq
  queue_seen u hu := by
    rcases List.mem_append.1 hu with hu | hu
    · exact List.mem_append_right _ (h.queue_seen u (List.mem_cons_of_mem _ hu))
    · exact List.mem_append_left _ (List.mem_map_of_mem hu)
  served e he hsource := by
    rcases List.mem_append.1 hsource with hdone | hv
    · exact List.mem_append_right _ (h.served e he hdone)
    · rw [List.mem_singleton] at hv
      by_cases hseen : e.target ∈ seen
      · exact List.mem_append_right _ hseen
      · have harc : (e.symbol, e.target) ∈ A.graph.arcs v.node := mem_graph_arcs.2 (hv ▸ he)
        obtain ⟨u, hu, hun⟩ :=
          Graph.exists_mem_firsts (Graph.mem_extend.2 ⟨_, harc, rfl⟩) hseen
        exact List.mem_append_left _ (List.mem_map.2 ⟨u, hu, hun⟩)

/-- Whatever is numbered before the next state to be served has been served. -/
theorem mem_done (h : A.Midway done seen (v :: queue)) (hlt : A.place p < A.place v.node) :
    p ∈ done := by
  have hplace : A.numberingOrder[done.length]? = some v.node := by
    rw [numberingOrder_eq, h.order_eq, Graph.explore]
    simp
  by_contra hp
  rw [place_eq_of_getElem? hplace, place, numberingOrder_eq, h.order_eq, List.append_assoc,
    List.idxOf_append_of_notMem hp] at hlt
  omega

/-- The states that a round adds to the queue get ascending numbers. -/
theorem new_pairwise (h : A.Midway done seen (v :: queue)) :
    (Graph.firsts seen (A.graph.extend v)).Pairwise fun u w => A.place u.node < A.place w.node := by
  have hprefix := Graph.prefix_explore (g := A.graph)
    ((Graph.firsts seen (A.graph.extend v)).map Visit.node ++ seen)
    (queue ++ Graph.firsts seen (A.graph.extend v))
  have hsub := (List.sublist_append_right queue _).trans hprefix.sublist
  have horder : ((Graph.firsts seen (A.graph.extend v)).map Visit.node).Sublist
      A.numberingOrder := by
    rw [numberingOrder_eq, h.next.order_eq, List.append_assoc]
    exact ((hsub.map Visit.node).trans (List.sublist_append_left _ _)).trans
      (List.sublist_append_right _ _)
  have hplaces := A.place_pairwise.sublist horder
  rwa [List.pairwise_map] at hplaces

/-- What a round adds to the queue is discovered along the edge that is followed. -/
theorem discovers (hA : A.WellFormed) (h : A.Midway done seen (v :: queue))
    (hu : u ∈ Graph.firsts seen (A.graph.extend v)) {c : Char} (hword : u.word = v.word ++ [c]) :
    A.Discovers ⟨v.node, c, u.node⟩ := by
  obtain ⟨hnew, c', hword', he, hleast⟩ := mem_new_iff.1 hu
  obtain rfl : c = c' := by simpa [hword] using hword'
  have hv := h.seen_reachable _ (h.queue_seen v List.mem_cons_self)
  have hstart : u.node ≠ A.start := fun heq => hnew (heq ▸ h.start_mem)
  refine ⟨he, hv, hstart, fun d hd htarget => ?_⟩
  change d.target = u.node at htarget
  rcases Nat.lt_trichotomy (A.place d.source) (A.place v.node) with hlt | heq | hgt
  · exact absurd (htarget ▸ h.served d hd (h.mem_done hlt)) hnew
  · have hplace := getElem?_place hA (hA.source_mem d hd)
    rw [heq, getElem?_place hA (reachable_subset hA hv), Option.some_inj] at hplace
    refine .inr ⟨heq.symm, hleast _ ?_⟩
    rw [hplace, ← htarget]
    exact hd
  · exact .inl hgt

/-- **A round adds the same states to the queue of the numbered automaton.** -/
theorem new_renumber (hA : A.WellFormed) (hasc : A.NamesAscend)
    (h : A.Midway done seen (v :: queue)) :
    Graph.firsts (seen.map A.numbering.rename)
        (A.renumber.graph.extend (v.rename A.numbering.rename))
      = (Graph.firsts seen (A.graph.extend v)).map (Visit.rename A.numbering.rename) := by
  have hstate : ∀ {q}, q ∈ seen → q ∈ A.states := fun hq =>
    reachable_subset hA (h.seen_reachable _ hq)
  have hnew : ∀ {u}, u ∈ Graph.firsts seen (A.graph.extend v) → u.node ∈ A.states := by
    intro u hu
    obtain ⟨_, c, _, he, _⟩ := mem_new_iff.1 hu
    exact hA.target_mem _ he
  refine List.Pairwise.eq_of_mem_iff (r := Visit.ListedBefore) ?_ ?_ fun u => ?_
  · exact (A.renumber.extend_pairwise _).sublist (Graph.firsts_sublist _ _)
  · -- the states are listed by their old names, but what is met in one move is numbered in order
    refine List.pairwise_map.2 (List.Pairwise.imp_of_mem ?_
      (((A.extend_pairwise v).sublist (Graph.firsts_sublist seen _)).and h.new_pairwise))
    rintro x y hx hy ⟨hlt | ⟨heq, _⟩, hplace⟩
    · exact .inl hlt
    · obtain ⟨_, c, hword, _, _⟩ := mem_new_iff.1 hx
      have hname := hasc.siblings _ _ (h.discovers hA hx hword)
        (h.discovers hA hy (heq ▸ hword)) rfl rfl hplace
      refine .inr ⟨heq, ?_⟩
      rw [← rename_eq_toString_place hA (hnew hx), ← rename_eq_toString_place hA (hnew hy)] at hname
      exact hname
  · exact mem_new_rename_iff hA (injOn_numbering hA) (fun q hq => hstate hq)
      (hstate (h.queue_seen v List.mem_cons_self))

end Midway

/-- **The numbered automaton is searched in the same order.** -/
theorem explore_renumber (hA : A.WellFormed) (hasc : A.NamesAscend) (seen : List State)
    (queue : List (Visit State)) : ∀ done, A.Midway done seen queue →
      A.renumber.graph.explore (seen.map A.numbering.rename)
          (queue.map (Visit.rename A.numbering.rename))
        = (A.graph.explore seen queue).map (Visit.rename A.numbering.rename) := by
  fun_induction Graph.explore A.graph seen queue with
  | case1 seen => intro _ _; simp [Graph.explore]
  | case2 seen v queue new ih =>
    intro done h
    have hnext := ih _ h.next
    rw [List.map_append, List.map_append, ← Visit.map_node_rename] at hnext
    rw [List.map_cons, Graph.explore, h.new_renumber hA hasc, List.map_cons]
    exact congrArg _ hnext

theorem nodesFrom_renumber (hA : A.WellFormed) (hasc : A.NamesAscend) :
    A.renumber.graph.nodesFrom A.renumber.start
      = (A.graph.nodesFrom A.start).map A.numbering.rename := by
  have h := explore_renumber hA hasc _ _ _ A.midway_start
  rw [Graph.nodesFrom, Graph.nodesFrom, ← Visit.map_node_rename]
  exact congrArg (List.map Visit.node) h

theorem mem_spare : q ∈ A.spare ↔ q ∈ A.states ∧ q ∉ A.graph.nodesFrom A.start := by
  simp [spare]

/-- What is left over has the same order as well. -/
theorem spare_renumber (hA : A.WellFormed) (hasc : A.NamesAscend) :
    A.renumber.spare = A.spare.map A.numbering.rename := by
  have hmem : ∀ {p}, p ∈ A.states →
      (A.numbering.rename p ∈ (A.graph.nodesFrom A.start).map A.numbering.rename ↔
        p ∈ A.graph.nodesFrom A.start) :=
    mem_map_iff_of_injOn (injOn_numbering hA)
      fun q hq => reachable_subset hA (FinSet.mem_ofList.2 hq)
  refine List.Pairwise.eq_of_mem_iff A.renumber.spare_pairwise ?_ fun n => ?_
  · have hplaces : A.spare.Pairwise fun p q => A.place p < A.place q :=
      A.place_pairwise.sublist (List.sublist_append_right _ _)
    refine List.pairwise_map.2 (hplaces.imp_of_mem fun {p q} hp hq hlt => ?_)
    rw [rename_eq_toString_place hA (mem_spare.1 hp).1,
      rename_eq_toString_place hA (mem_spare.1 hq).1]
    exact hasc.spare p q hp hq hlt
  · rw [mem_spare, nodesFrom_renumber hA hasc]
    constructor
    · rintro ⟨hn, hmet⟩
      obtain ⟨p, hp, rfl⟩ := FinSet.mem_map.1 hn
      exact List.mem_map_of_mem (mem_spare.2 ⟨hp, mt (hmem hp).2 hmet⟩)
    · intro h
      obtain ⟨p, hp, rfl⟩ := List.mem_map.1 h
      obtain ⟨hp, hmet⟩ := mem_spare.1 hp
      exact ⟨FinSet.mem_map.2 ⟨p, hp, rfl⟩, mt (hmem hp).1 hmet⟩

theorem numberingOrder_renumber (hA : A.WellFormed) (hasc : A.NamesAscend) :
    A.renumber.numberingOrder = A.numberingOrder.map A.numbering.rename := by
  rw [numberingOrder_eq, numberingOrder_eq, nodesFrom_renumber hA hasc, spare_renumber hA hasc,
    List.map_append]

/-! ## Numbering again -/

/-- A renaming that leaves all states alone changes nothing. -/
theorem rename_eq_self (hA : A.WellFormed) (hf : ∀ q, q ∈ A.states → f q = q) :
    A.rename f = A := by
  have himage : ∀ {s : FinSet State}, (∀ q, q ∈ s → q ∈ A.states) → s.map f = s := by
    intro s hs
    refine FinSet.ext fun q => ?_
    rw [FinSet.mem_map]
    constructor
    · rintro ⟨p, hp, rfl⟩
      rwa [hf p (hs p hp)]
    · exact fun hq => ⟨q, hq, hf q (hs q hq)⟩
  have hedges : A.edges.mapStates f = A.edges := by
    have hmap : ∀ d, d ∈ A.edges → d.map f = d := fun d hd => by
      rw [Edge.map, hf _ (hA.source_mem d hd), hf _ (hA.target_mem d hd)]
    refine FinSet.ext fun e => FinSet.mem_map.trans ⟨?_, fun he => ⟨e, he, hmap e he⟩⟩
    rintro ⟨d, hd, rfl⟩
    rwa [hmap d hd]
  calc A.rename f
      = ⟨A.states.map f, A.alphabet, f A.start, A.finals.map f, A.edges.mapStates f⟩ := rfl
    _ = A := by
      rw [himage fun _ h => h, himage hA.finals_subset, hedges, hf _ hA.start_mem]

/-- **Numbering a numbered automaton changes nothing**, provided that names ascend where they are
looked at. -/
theorem renumber_renumber (hA : A.WellFormed) (hasc : A.NamesAscend) :
    A.renumber.renumber = A.renumber := by
  refine rename_eq_self (wellFormed_rename hA _) fun n hn => ?_
  obtain ⟨q, hq, rfl⟩ := FinSet.mem_map.1 hn
  have hplace := getElem?_place hA hq
  rw [rename_eq_toString_place hA hq]
  refine rename_numbering ?_
  rw [numberingOrder_renumber hA hasc, List.getElem?_map, hplace, Option.map_some,
    rename_eq_toString_place hA hq]

/-- Up to ten numbers have one digit each. -/
theorem namesAscend_of_size_le_ten (hA : A.WellFormed) (hsize : A.size ≤ 10) : A.NamesAscend := by
  have hdigit : ∀ i < 10, ∀ j < 10, i < j → toString i < toString j := by decide
  have hlt : ∀ {q}, q ∈ A.states → A.place q < 10 := fun hq =>
    (place_lt_size hA hq).trans_le hsize
  constructor
  · intro d e hd he _ _
    exact hdigit _ (hlt (hA.target_mem d hd.mem)) _ (hlt (hA.target_mem e he.mem))
  · intro p q hp hq
    exact hdigit _ (hlt (mem_spare.1 hp).1) _ (hlt (mem_spare.1 hq).1)

end NFA

namespace DFA

variable {D : DFA}

/-- In a deterministic automaton no two states are met in one move. -/
theorem namesAscend_of_reachable (hreach : ∀ q, q ∈ D.states → q ∈ D.reachable) :
    D.NamesAscend where
  siblings d e hd he hsource hsymbol hlt := by
    rw [D.functional d hd.mem e he.mem hsource hsymbol] at hlt
    exact absurd hlt (Nat.lt_irrefl _)
  spare p q hp := by
    obtain ⟨hp, hmet⟩ := NFA.mem_spare.1 hp
    exact absurd (FinSet.mem_ofList.1 (hreach p hp)) hmet

theorem renumber_renumber (hD : D.WellFormed) (hasc : D.NamesAscend) :
    D.renumber.renumber = D.renumber := by
  have hN : D.renumber.WellFormed := wellFormed_rename hD _
  refine toNFA_injective ?_
  rw [toNFA_renumber hN, toNFA_renumber hD, NFA.renumber_renumber hD hasc]

end DFA

/-- **Numbering the states again changes nothing**, provided that no smaller number comes after a
greater one as a name where the search looks at both.  This is so if there are ten states at most,
and in every deterministic automaton without states to spare. -/
theorem numbering_again :
    (∀ A : NFA, A.WellFormed → A.NamesAscend → A.renumber.renumber = A.renumber) ∧
    (∀ D : DFA, D.WellFormed → D.NamesAscend → D.renumber.renumber = D.renumber) ∧
    (∀ A : NFA, A.WellFormed → A.size ≤ 10 → A.NamesAscend) ∧
    ∀ D : DFA, (∀ q, q ∈ D.states → q ∈ D.reachable) → D.NamesAscend :=
  ⟨fun _ hA hasc => NFA.renumber_renumber hA hasc, fun _ hD hasc => DFA.renumber_renumber hD hasc,
    fun _ hA hsize => NFA.namesAscend_of_size_le_ten hA hsize,
    fun _ hreach => DFA.namesAscend_of_reachable hreach⟩

/-- Ten states. -/
def tenStates : List State := ["a", "b", "c", "d", "e", "f", "g", "h", "i", "j"]

/-- Eleven states in a row. -/
def row : DFA :=
  let moves := FunctionalRelation.ofList
    (List.zipWith (fun p q => ⟨p, 'a', q⟩) ("s" :: tenStates) tenStates)
  { states := FinSet.ofList ("s" :: tenStates)
    alphabet := FinSet.ofList ['a']
    start := "s"
    finals := FinSet.ofList ["b"]
    edges := moves.edges
    functional := moves.functional }

theorem row_numbering_again :
    (branching.WellFormed ∧ branching.size ≤ 10 ∧ branching.NamesAscend ∧
      branching.renumber.renumber = branching.renumber) ∧
    row.WellFormed ∧ row.size = 11 ∧ (∀ q, q ∈ row.states → q ∈ row.reachable) ∧
      row.NamesAscend ∧ row.renumber.renumber = row.renumber := by
  have hB : branching.WellFormed := by decide
  have hR : row.WellFormed := by decide
  have hreach : row.reachable = row.states := by cbv
  have hall : ∀ q, q ∈ row.states → q ∈ row.reachable := fun q hq => hreach ▸ hq
  have hsmall := numbering_again.2.2.1 branching hB (by decide)
  have hrow := numbering_again.2.2.2 row hall
  exact ⟨⟨hB, by decide, hsmall, numbering_again.1 _ hB hsmall⟩,
    hR, by decide, hall, hrow, numbering_again.2.1 _ hR hrow⟩

/-- One symbol leads to ten states, of which the second one is final. -/
def fan : NFA where
  states := FinSet.ofList ("s" :: tenStates)
  alphabet := FinSet.ofList ['a']
  start := "s"
  finals := FinSet.ofList ["b"]
  edges := FinSet.ofList (tenStates.map fun q => ⟨"s", 'a', q⟩)

/-- Nothing leads to the ten states. -/
def scattered : DFA :=
  { fan with
    alphabet := ∅
    edges := ∅
    functional := FunctionalRelation.empty.functional }

theorem fan_obtainable : fan.Obtainable :=
  .described (.addAll .empty (.start "s" :: .final "b" ::
    tenStates.map fun q => .edge ⟨"s", 'a', q⟩)) (by rfl)

theorem scattered_obtainable : scattered.Obtainable :=
  .described (.addAll .empty (.start "s" :: .final "b" :: tenStates.map .state)) (by rfl)

/-- With eleven states the second state may get another number when it is called `2` already, since
the name `10` comes before it. -/
theorem fan_renumber_ne :
    (fan.Obtainable ∧ fan.renumber.finals = FinSet.ofList ["2"] ∧
      fan.renumber.renumber.finals = FinSet.ofList ["3"] ∧
      fan.renumber.renumber ≠ fan.renumber) ∧
    scattered.Obtainable ∧ scattered.renumber.finals = FinSet.ofList ["2"] ∧
      scattered.renumber.renumber.finals = FinSet.ofList ["3"] ∧
      scattered.renumber.renumber ≠ scattered.renumber := by
  have hne : (FinSet.ofList ["3"] : FinSet State) ≠ FinSet.ofList ["2"] := by decide
  have hfan : fan.renumber.finals = FinSet.ofList ["2"] := by cbv
  have hfan' : fan.renumber.renumber.finals = FinSet.ofList ["3"] := by cbv
  have hscattered : scattered.renumber.finals = FinSet.ofList ["2"] := by cbv
  have hscattered' : scattered.renumber.renumber.finals = FinSet.ofList ["3"] := by cbv
  refine ⟨⟨fan_obtainable, hfan, hfan', fun h => hne ?_⟩,
    scattered_obtainable, hscattered, hscattered', fun h => hne ?_⟩
  · rw [← hfan', h, hfan]
  · rw [← hscattered', h, hscattered]

end Automata
