import Automata.Search
import Mathlib.Data.List.Nodup

/-!
# What a breadth-first search finds

`Graph.discover` puts out visits while it fills its queue.  The invariants of that loop are stated
for an arbitrary queue and an arbitrary list of seen nodes.

## What is here

* `Graph.Walk` — what it means to follow arcs from one node to another.
* `Graph.mem_explore_of_mem`, `Graph.explore_sound`, `Graph.explore_closed` — everything in the
  queue is put out, only what can be walked to is, and nothing that follows from it is forgotten.
* `Graph.mem_nodesFrom_iff` — **the search finds exactly the nodes that can be walked to**, and
  `Graph.nodup_nodesFrom` — each of them once.
* `Graph.nodesFrom_congr` — **arcs that cannot be walked to do not matter.**
-/

set_option autoImplicit false

namespace Automata

namespace Graph

variable {α : Type} {g : Graph α}

/-- `Walk g a w b` says that arcs labelled with the symbols of `w` lead from `a` to `b`. -/
inductive Walk (g : Graph α) : α → List Char → α → Prop where
  /-- Following no arc leaves the node. -/
  | nil (a : α) : Walk g a [] a
  /-- An arc followed by a walk. -/
  | cons {a b d : α} {c : Char} {w : List Char} :
      (c, b) ∈ g.arcs a → Walk g b w d → Walk g a (c :: w) d

theorem Walk.append {a b d : α} {v w : List Char} (h : g.Walk a v b) (h' : g.Walk b w d) :
    g.Walk a (v ++ w) d := by
  induction h with
  | nil => exact h'
  | cons harc _ ih => exact .cons harc (ih h')

theorem Walk.single {a b : α} {c : Char} (h : (c, b) ∈ g.arcs a) : g.Walk a [c] b :=
  .cons h (.nil b)

/-- A set of nodes that no arc leaves holds everything that can be walked to. -/
theorem Walk.closed {P : α → Prop} (hP : ∀ a, P a → ∀ arc ∈ g.arcs a, P arc.2) {a b : α}
    {w : List Char} (h : g.Walk a w b) (ha : P a) : P b := by
  induction h with
  | nil => exact ha
  | cons harc _ ih => exact ih (hP _ ha _ harc)

theorem mem_extend {u v : Visit α} :
    v ∈ g.extend u ↔ ∃ arc ∈ g.arcs u.node, (⟨u.word ++ [arc.1], arc.2⟩ : Visit α) = v :=
  List.mem_map

variable [DecidableEq α]

/-- A node that is not seen yet keeps one of its visits. -/
theorem exists_mem_firsts {seen : List α} {vs : List (Visit α)} {v : Visit α} (h : v ∈ vs)
    (hv : v.node ∉ seen) : ∃ u ∈ firsts seen vs, u.node = v.node := by
  induction vs generalizing seen with
  | nil => exact absurd h List.not_mem_nil
  | cons w vs ih =>
    unfold firsts
    split
    · rename_i hw
      rcases List.mem_cons.1 h with rfl | h
      · exact absurd hw hv
      · exact ih h hv
    · by_cases hvw : w.node = v.node
      · exact ⟨w, List.mem_cons_self, hvw⟩
      · have h : v ∈ vs := (List.mem_cons.1 h).resolve_left fun e => hvw (e ▸ rfl)
        have hv' : v.node ∉ w.node :: seen := fun hm =>
          (List.mem_cons.1 hm).elim (fun e => hvw e.symm) hv
        obtain ⟨u, hu, huv⟩ := ih h hv'
        exact ⟨u, List.mem_cons_of_mem _ hu, huv⟩

/-! ## The loop -/

/-- Everything in the queue is put out. -/
theorem mem_explore_of_mem {seen : List α} {queue : List (Visit α)} {v : Visit α}
    (h : v ∈ queue) : v ∈ g.explore seen queue := by
  fun_induction explore g seen queue with
  | case1 => exact h
  | case2 seen u queue new ih =>
    rcases List.mem_cons.1 h with rfl | h
    · exact List.mem_cons_self
    · exact List.mem_cons_of_mem _ (ih (List.mem_append_left _ h))

/-- Everything that is put out can be walked to from the queue, along the word it is put out
with. -/
theorem explore_sound {seen : List α} {queue : List (Visit α)} {v : Visit α}
    (h : v ∈ g.explore seen queue) :
    ∃ u ∈ queue, ∃ w, g.Walk u.node w v.node ∧ v.word = u.word ++ w := by
  fun_induction explore g seen queue with
  | case1 => exact absurd h List.not_mem_nil
  | case2 seen u queue new ih =>
    rcases List.mem_cons.1 h with rfl | h
    · exact ⟨v, List.mem_cons_self, [], .nil _, (List.append_nil _).symm⟩
    · obtain ⟨x, hx, w, hwalk, hword⟩ := ih h
      rcases List.mem_append.1 hx with hold | hnew
      · exact ⟨x, List.mem_cons_of_mem _ hold, w, hwalk, hword⟩
      · obtain ⟨arc, harc, rfl⟩ := mem_extend.1 (mem_of_mem_firsts hnew).1
        refine ⟨u, List.mem_cons_self, arc.1 :: w, .cons harc hwalk, ?_⟩
        rw [hword, List.append_assoc, List.singleton_append]

/-- The arcs of what is put out lead to nodes that are seen or put out. -/
theorem explore_closed {seen : List α} {queue : List (Visit α)} {v : Visit α}
    (h : v ∈ g.explore seen queue) {arc : Char × α} (harc : arc ∈ g.arcs v.node) :
    arc.2 ∈ seen ∨ ∃ u ∈ g.explore seen queue, u.node = arc.2 := by
  fun_induction explore g seen queue with
  | case1 => exact absurd h List.not_mem_nil
  | case2 seen u queue new ih =>
    have hnew : ∀ x ∈ new, x ∈ g.explore (new.map Visit.node ++ seen) (queue ++ new) :=
      fun x hx => mem_explore_of_mem (List.mem_append_right _ hx)
    rcases List.mem_cons.1 h with rfl | h
    · by_cases hs : arc.2 ∈ seen
      · exact .inl hs
      · have hmem : ⟨v.word ++ [arc.1], arc.2⟩ ∈ g.extend v := mem_extend.2 ⟨arc, harc, rfl⟩
        obtain ⟨x, hx, hxn⟩ := exists_mem_firsts hmem hs
        exact .inr ⟨x, List.mem_cons_of_mem _ (hnew x hx), hxn⟩
    · rcases ih h with hs | ⟨x, hx, hxn⟩
      · rcases List.mem_append.1 hs with hn | hs
        · obtain ⟨x, hx, hxn⟩ := List.mem_map.1 hn
          exact .inr ⟨x, List.mem_cons_of_mem _ (hnew x hx), hxn⟩
        · exact .inl hs
      · exact .inr ⟨x, List.mem_cons_of_mem _ hx, hxn⟩

/-- What is put out was in the queue or had not been seen. -/
theorem mem_queue_of_mem_explore {seen : List α} {queue : List (Visit α)} {v : Visit α}
    (h : v ∈ g.explore seen queue) (hv : v.node ∈ seen) : v ∈ queue := by
  fun_induction explore g seen queue with
  | case1 => exact h
  | case2 seen u queue new ih =>
    rcases List.mem_cons.1 h with rfl | h
    · exact List.mem_cons_self
    · rcases List.mem_append.1 (ih h (List.mem_append_right _ hv)) with hold | hnew
      · exact List.mem_cons_of_mem _ hold
      · exact absurd hv (mem_of_mem_firsts hnew).2

/-- No node is put out twice. -/
theorem nodup_explore {seen : List α} {queue : List (Visit α)}
    (hnodup : (queue.map Visit.node).Nodup) (hseen : ∀ v ∈ queue, v.node ∈ seen) :
    ((g.explore seen queue).map Visit.node).Nodup := by
  fun_induction explore g seen queue with
  | case1 => exact .nil
  | case2 seen u queue new ih =>
    rw [List.map_cons, List.nodup_cons] at hnodup
    have hu : u.node ∈ seen := hseen u List.mem_cons_self
    rw [List.map_cons, List.nodup_cons]
    refine ⟨fun hm => ?_, ?_⟩
    · obtain ⟨x, hx, hxu⟩ := List.mem_map.1 hm
      have hq : x ∈ queue ++ new :=
        mem_queue_of_mem_explore hx (hxu ▸ List.mem_append_right _ hu)
      rcases List.mem_append.1 hq with hold | hnew
      · exact hnodup.1 (List.mem_map.2 ⟨x, hold, hxu⟩)
      · exact (mem_of_mem_firsts hnew).2 (hxu ▸ hu)
    · refine ih ?_ ?_
      · rw [List.map_append]
        refine hnodup.2.append (nodup_firsts _ _) fun a ha hn => ?_
        obtain ⟨x, hx, rfl⟩ := List.mem_map.1 ha
        obtain ⟨y, hy, hyx⟩ := List.mem_map.1 hn
        exact (mem_of_mem_firsts hy).2 (hyx ▸ hseen x (List.mem_cons_of_mem _ hx))
      · intro x hx
        rcases List.mem_append.1 hx with hold | hnew
        · exact List.mem_append_right _ (hseen x (List.mem_cons_of_mem _ hold))
        · exact List.mem_append_left _ (List.mem_map_of_mem hnew)

/-! ## The search from one node -/

/-- The start is found first. -/
theorem discover_eq_cons (start : α) : ∃ visits, g.discover start = ⟨[], start⟩ :: visits := by
  rw [discover, explore]
  exact ⟨_, rfl⟩

/-- A visit carries a word that leads to its node. -/
theorem walk_of_mem_discover {start : α} {v : Visit α} (h : v ∈ g.discover start) :
    g.Walk start v.word v.node := by
  obtain ⟨u, hu, w, hwalk, hword⟩ := explore_sound h
  rw [List.mem_singleton] at hu
  subst hu
  rw [hword]
  exact hwalk

/-- **The search finds exactly the nodes that can be walked to.** -/
theorem mem_nodesFrom_iff {start a : α} : a ∈ g.nodesFrom start ↔ ∃ w, g.Walk start w a := by
  refine ⟨fun h => ?_, ?_⟩
  · obtain ⟨v, hv, rfl⟩ := List.mem_map.1 h
    exact ⟨v.word, walk_of_mem_discover hv⟩
  · rintro ⟨w, h⟩
    have hstart : start ∈ g.nodesFrom start :=
      List.mem_map.2 ⟨⟨[], start⟩, mem_explore_of_mem List.mem_cons_self, rfl⟩
    refine h.closed (P := fun b => b ∈ g.nodesFrom start) (fun b hb arc harc => ?_) hstart
    obtain ⟨v, hv, rfl⟩ := List.mem_map.1 hb
    rcases explore_closed hv harc with hs | ⟨u, hu, hua⟩
    · exact List.mem_singleton.1 hs ▸ hstart
    · exact List.mem_map.2 ⟨u, hu, hua⟩

/-- Each node is found once. -/
theorem nodup_nodesFrom (start : α) : (g.nodesFrom start).Nodup := by
  refine nodup_explore (List.nodup_singleton start) fun v hv => ?_
  rw [List.mem_singleton] at hv ⊢
  rw [hv]

theorem nodesFrom_eq_cons (start : α) : ∃ nodes, g.nodesFrom start = start :: nodes := by
  obtain ⟨visits, h⟩ := discover_eq_cons (g := g) start
  exact ⟨visits.map Visit.node, by rw [nodesFrom, h, List.map_cons]⟩

theorem start_mem_nodesFrom (start : α) : start ∈ g.nodesFrom start :=
  mem_nodesFrom_iff.2 ⟨[], .nil start⟩

/-! ## Graphs that differ out of reach -/

/-- Two searches run alike if the graphs have the same arcs wherever the queue can lead. -/
theorem explore_congr {h : Graph α} {P : α → Prop} (hclosed : ∀ a, P a → ∀ arc ∈ g.arcs a, P arc.2)
    (harcs : ∀ a, P a → g.arcs a = h.arcs a) {seen : List α} {queue : List (Visit α)}
    (hqueue : ∀ v ∈ queue, P v.node) : g.explore seen queue = h.explore seen queue := by
  fun_induction explore g seen queue with
  | case1 => rw [explore]
  | case2 seen v queue new ih =>
    have hv := hqueue v List.mem_cons_self
    have hextend : g.extend v = h.extend v := by rw [extend, extend, harcs _ hv]
    rw [explore, ← hextend]
    refine congrArg _ (ih fun u hu => ?_)
    rcases List.mem_append.1 hu with hold | hnew
    · exact hqueue u (List.mem_cons_of_mem _ hold)
    · obtain ⟨arc, harc, rfl⟩ := mem_extend.1 (mem_of_mem_firsts hnew).1
      exact hclosed _ hv arc harc

/-- **A search shows nothing of the nodes that it does not find.** -/
theorem nodesFrom_congr {h : Graph α} {P : α → Prop}
    (hclosed : ∀ a, P a → ∀ arc ∈ g.arcs a, P arc.2) (harcs : ∀ a, P a → g.arcs a = h.arcs a)
    {start : α} (hstart : P start) : g.nodesFrom start = h.nodesFrom start := by
  refine congrArg (List.map Visit.node) (explore_congr hclosed harcs fun v hv => ?_)
  rw [List.mem_singleton.1 hv]
  exact hstart

end Graph

end Automata
