import Automata.Proofs.Obtainable
import Automata.Proofs.SearchLayers
import Mathlib

/-!
# The loop that finds the reachable states

The reachable states are collected by a loop over a queue.  The loop goes through the symbols of the
alphabet, not through the edges, and marks a state as seen when it joins the queue.  What it misses
by the first is nothing, because edges carry no other symbols; what it gains by the second is that
no state waits twice, so that it ends after one pass for each state that it finds.

## What is here

* `NFA.Exploration` — what the loop remembers; `NFA.pass` — one pass of it, and `NFA.explored` —
  where it stands after some passes.
* `NFA.symbolGraph` — what the loop follows, as a graph; `NFA.walk_symbolGraph_iff` — walks in it
  are paths.
* `NFA.follows_pass` — a pass is a round of the search in that graph.
* `NFA.ReachedExactly` — what is found and when it is found; `reachable_exact` — **the loop ends
  with the states that some tape leads to.**
-/

set_option autoImplicit false

namespace Automata

namespace NFA

variable {A : NFA} {q p : State} {w : List Char}

/-! ## The loop -/

/-- The states that have been seen, and among them those from which the loop has not gone on yet. -/
structure Exploration where
  /-- The states that have been seen. -/
  seen : FinSet State
  /-- The states that wait, in the order in which they were seen. -/
  queue : List State
deriving DecidableEq

/-- A state comes into view.  If it has not been seen before, it joins the queue. -/
def Exploration.see (x : Exploration) (p : State) : Exploration :=
  if p ∈ x.seen then x else ⟨x.seen.insert p, x.queue ++ [p]⟩

/-- The states that come into view from `q`, symbol by symbol of the alphabet. -/
def view (A : NFA) (q : State) : List State :=
  A.alphabet.toList.flatMap fun a => (A.next q a).toList

/-- One pass of the loop.  The first state leaves the queue, and what it leads to comes into view.
If no state waits, nothing happens any more. -/
def pass (A : NFA) (x : Exploration) : Exploration :=
  match x.queue with
  | [] => x
  | q :: queue => (A.view q).foldl Exploration.see ⟨x.seen, queue⟩

/-- What the loop remembers after `k` passes. -/
def explored (A : NFA) (k : Nat) : Exploration :=
  A.pass^[k] ⟨FinSet.singleton A.start, [A.start]⟩

/-! ## What the loop follows -/

/-- The automaton as the loop sees it: the arcs that leave a state are listed symbol by symbol of
the alphabet. -/
def symbolGraph (A : NFA) : Graph State where
  arcs q := A.alphabet.toList.flatMap fun a => (A.next q a).toList.map fun p => (a, p)
  finite := by
    refine ⟨A.edges.toList.map Edge.target, fun q arc h => ?_⟩
    obtain ⟨a, _, h⟩ := List.mem_flatMap.1 h
    obtain ⟨p, hp, rfl⟩ := List.mem_map.1 h
    exact List.mem_map.2 ⟨_, mem_next.1 hp, rfl⟩

theorem mem_symbolGraph_arcs {a : Char} :
    (a, p) ∈ A.symbolGraph.arcs q ↔ a ∈ A.alphabet ∧ (⟨q, a, p⟩ : Edge) ∈ A.edges := by
  simp [symbolGraph, mem_next]

/-- Nothing is missed by going through the alphabet. -/
theorem walk_symbolGraph_iff (hA : A.WellFormed) : A.symbolGraph.Walk q w p ↔ A.Path q w p := by
  constructor
  · intro h
    induction h with
    | nil q => exact .nil q
    | cons harc _ ih => exact .cons (mem_symbolGraph_arcs.1 harc).2 ih
  · intro h
    induction h with
    | nil q => exact .nil q
    | cons he _ ih => exact .cons (mem_symbolGraph_arcs.2 ⟨hA.symbol_mem _ he, he⟩) ih

/-- The search in the graph finds the reachable states. -/
theorem mem_nodesFrom_symbolGraph (hA : A.WellFormed) :
    q ∈ A.symbolGraph.nodesFrom A.start ↔ q ∈ A.reachable := by
  rw [Graph.mem_nodesFrom_iff, mem_reachable_iff]
  exact exists_congr fun w => walk_symbolGraph_iff hA

theorem length_discover_symbolGraph (hA : A.WellFormed) :
    (A.symbolGraph.discover A.start).length = A.reachable.size := by
  have hlen : (A.symbolGraph.nodesFrom A.start).length = A.reachable.size :=
    FinSet.length_eq_size (Graph.nodup_nodesFrom _) fun q => mem_nodesFrom_symbolGraph hA
  rwa [Graph.nodesFrom, List.length_map] at hlen

/-! ## A pass is a round -/

/-- The loop remembers the same as a search, which also knows along which words states were
found. -/
structure Exploration.Follows (x : Exploration) (y : List State × List (Visit State)) : Prop where
  /-- The same states have been seen. -/
  mem_iff : ∀ q, q ∈ x.seen ↔ q ∈ y.1
  /-- The same states wait. -/
  queue_eq : x.queue = y.2.map Visit.node

/-- What comes into view joins the queue as the new visits of a round do. -/
theorem Exploration.Follows.foldl_see {x : Exploration} {seen : List State}
    {queue : List (Visit State)} (h : x.Follows (seen, queue)) (visits : List (Visit State)) :
    ((visits.map Visit.node).foldl see x).Follows
      ((Graph.firsts seen visits).map Visit.node ++ seen, queue ++ Graph.firsts seen visits) := by
  induction visits generalizing x seen queue with
  | nil => simpa [Graph.firsts] using h
  | cons v visits ih =>
    rw [List.map_cons, List.foldl_cons, Graph.firsts, see]
    by_cases hv : v.node ∈ seen
    · rw [if_pos ((h.mem_iff v.node).2 hv), if_pos hv]
      exact ih h
    · rw [if_neg (mt (h.mem_iff v.node).1 hv), if_neg hv]
      have hnext : Follows ⟨x.seen.insert v.node, x.queue ++ [v.node]⟩
          (v.node :: seen, queue ++ [v]) := by
        refine ⟨fun q => ?_, ?_⟩
        · simp [h.mem_iff]
        · simp [h.queue_eq]
      obtain ⟨hmem, hqueue⟩ := ih hnext
      refine ⟨fun q => (hmem q).trans ?_, ?_⟩
      · simp [or_left_comm]
      · simp [hqueue]

theorem map_node_extend (v : Visit State) :
    (A.symbolGraph.extend v).map Visit.node = A.view v.node := by
  simp [Graph.extend, symbolGraph, view, List.map_flatMap, Function.comp_def]

/-- **A pass is a round of the search.** -/
theorem follows_pass {x : Exploration} {y : List State × List (Visit State)} (h : x.Follows y) :
    (A.pass x).Follows (A.symbolGraph.round y) := by
  obtain ⟨seen, queue⟩ := y
  have hqueue := h.queue_eq
  cases queue with
  | nil =>
    rw [pass, hqueue]
    exact h
  | cons v queue =>
    have hpass : A.pass x = ((A.symbolGraph.extend v).map Visit.node).foldl Exploration.see
        ⟨x.seen, queue.map Visit.node⟩ := by
      simp [pass, hqueue, map_node_extend]
    have hleft : Exploration.Follows ⟨x.seen, queue.map Visit.node⟩ (seen, queue) :=
      ⟨h.mem_iff, rfl⟩
    rw [hpass]
    exact hleft.foldl_see _

/-- After as many passes as rounds the loop and the search have come equally far. -/
theorem follows_explored (A : NFA) (k : Nat) :
    (A.explored k).Follows (A.symbolGraph.round^[k] ([A.start], [⟨[], A.start⟩])) := by
  induction k with
  | zero => exact ⟨by simp [explored], rfl⟩
  | succ k ih =>
    rw [explored, Function.iterate_succ_apply', Function.iterate_succ_apply']
    exact follows_pass ih

theorem queue_explored_eq_nil_iff (k : Nat) : (A.explored k).queue = [] ↔
    (A.symbolGraph.round^[k] ([A.start], [⟨[], A.start⟩])).2 = [] := by
  rw [(A.follows_explored k).queue_eq, List.map_eq_nil_iff]

/-- **The loop ends after one pass for each reachable state**, and not before. -/
theorem explored_ends_iff (hA : A.WellFormed) (k : Nat) :
    (A.explored k).queue = [] ↔ A.reachable.size ≤ k := by
  rw [queue_explored_eq_nil_iff, Graph.iterate_round_eq_nil_iff, ← length_discover_symbolGraph hA,
    Graph.discover]

/-- **When it ends, it has seen the reachable states.** -/
theorem seen_explored (hA : A.WellFormed) {k : Nat} (h : (A.explored k).queue = []) :
    (A.explored k).seen = A.reachable := by
  refine FinSet.ext fun q => ?_
  have hseen : ∀ v ∈ [(⟨[], A.start⟩ : Visit State)], v.node ∈ [A.start] := by simp
  rw [(A.follows_explored k).mem_iff,
    Graph.mem_seen_iff hseen (queue_explored_eq_nil_iff k |>.1 h), ← mem_nodesFrom_symbolGraph hA,
    Graph.nodesFrom, Graph.discover, List.mem_map, List.mem_singleton]
  refine or_iff_right_of_imp ?_
  rintro rfl
  exact ⟨_, Graph.mem_explore_of_mem List.mem_cons_self, rfl⟩

/-! ## What is found -/

/-- What the loop finds, and when it has found it. -/
structure ReachedExactly (A : NFA) : Prop where
  /-- The queue runs empty after one pass for each reachable state, and not before. -/
  ends_iff : ∀ k, (A.explored k).queue = [] ↔ A.reachable.size ≤ k
  /-- The states that have been seen then are the reachable ones. -/
  seen_eq : ∀ k, (A.explored k).queue = [] → (A.explored k).seen = A.reachable
  /-- These are the states that some tape leads to. -/
  mem_iff : ∀ q, q ∈ A.reachable ↔ ∃ tape, A.Path A.start tape q
  /-- They are states of the automaton. -/
  subset : ∀ q, q ∈ A.reachable → q ∈ A.states
  /-- No symbol leads out of them. -/
  closed : ∀ q a p, q ∈ A.reachable → p ∈ A.next q a → p ∈ A.reachable

theorem WellFormed.reachedExactly (hA : A.WellFormed) : A.ReachedExactly where
  ends_iff := explored_ends_iff hA
  seen_eq _ := seen_explored hA
  mem_iff _ := mem_reachable_iff
  subset _ := reachable_subset hA
  closed _ _ _ hq hp := reachable_closed hq (mem_next.1 hp)

end NFA

namespace DFA

variable {D : DFA} {q : State}

/-- What comes into view on a symbol is the only target, if there is one. -/
theorem toList_next (D : DFA) (q : State) (a : Char) :
    (D.next q a).toList = (D.next? q a).toList := by
  have hmem : ∀ p, p ∈ D.next q a ↔ D.next? q a = some p := fun p => by
    rw [NFA.mem_next, next?_eq_some_iff]
  cases h : D.next? q a with
  | none =>
    have hnext : D.next q a = ∅ := FinSet.ext fun p => by simp [hmem, h]
    rw [hnext]
    rfl
  | some r =>
    have hnext : D.next q a = FinSet.singleton r := FinSet.ext fun p => by simp [hmem, h, eq_comm]
    rw [hnext]
    rfl

/-- A state is reachable exactly if some run that reads its tape ends in it. -/
theorem mem_reachable_iff_run :
    q ∈ D.reachable ↔ ∃ tape l, D.run tape = .complete l ∧ l.getLast? = some q := by
  rw [mem_reachable_iff_after]
  refine exists_congr fun tape => ?_
  constructor
  · intro h
    obtain ⟨l, hl⟩ := run_complete_iff.2 (Option.isSome_iff_exists.2 ⟨q, h⟩)
    obtain ⟨p, hp, hafter⟩ := after_of_runFrom_complete hl
    exact ⟨l, hl, hp.trans (hafter.symm.trans h)⟩
  · rintro ⟨l, hl, hq⟩
    obtain ⟨p, hp, hafter⟩ := after_of_runFrom_complete hl
    exact hafter.trans (hp.symm.trans hq)

end DFA

/-- **The loop ends with the states that some tape leads to.**  In an automaton whose parts fit
together it takes one pass for each of them; they are states of the automaton, and nothing leads out
of them.  In a deterministic automaton at most one state comes into view on each symbol, and a state
is found exactly if some run ends in it that has read its tape. -/
theorem reachable_exact :
    (∀ A : NFA, A.WellFormed → A.ReachedExactly) ∧
      ∀ D : DFA, D.WellFormed → D.toNFA.ReachedExactly ∧
        (∀ q a, (D.next q a).toList = (D.next? q a).toList) ∧
        ∀ q, q ∈ D.reachable ↔ ∃ tape l, D.run tape = .complete l ∧ l.getLast? = some q := by
  constructor
  · intro A hA
    exact hA.reachedExactly
  · intro D hD
    exact ⟨NFA.WellFormed.reachedExactly hD, D.toList_next, fun q => DFA.mem_reachable_iff_run⟩

/-- No tape leads to `r`, though it is final. -/
def detached : DFA :=
  let moves := FunctionalRelation.ofList [⟨"p", 'a', "q"⟩, ⟨"q", 'a', "p"⟩, ⟨"r", 'a', "q"⟩]
  { states := FinSet.ofList ["p", "q", "r"]
    alphabet := FinSet.ofList ['a']
    start := "p"
    finals := FinSet.ofList ["q", "r"]
    edges := moves.edges
    functional := moves.functional }

/-- The loop takes two passes through the second automaton. -/
theorem detached_reachable_exact :
    (branching.WellFormed ∧ branching.ReachedExactly) ∧
      detached.WellFormed ∧ detached.toNFA.ReachedExactly ∧
      ((detached.explored 2).queue = [] ∧ detached.reachable = FinSet.ofList ["p", "q"]) ∧
      ∀ q, q ∈ detached.reachable ↔
        ∃ tape l, detached.run tape = .complete l ∧ l.getLast? = some q := by
  obtain ⟨hreached, _, hruns⟩ := reachable_exact.2 detached (by decide)
  have hended : (detached.explored 2).queue = [] := by decide
  have hseen : (detached.explored 2).seen = FinSet.ofList ["p", "q"] := by decide
  exact ⟨⟨by decide, reachable_exact.1 branching (by decide)⟩, by decide, hreached,
    ⟨hended, (hreached.seen_eq 2 hended).symm.trans hseen⟩, hruns⟩

end Automata
