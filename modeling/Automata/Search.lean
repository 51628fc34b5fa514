/-!
# Breadth-first discovery in a labelled graph

Reachable states, the subset construction, the numbering of states and the comparison of two
automata all explore a graph whose arcs carry symbols.  This file has the one search they share.

## What is here

* `Graph α` — for each node the list of its arcs, together with the fact that all arcs lead into
  finitely many nodes.  That fact is what ends the search; it costs nothing when the search runs.
* `Visit α` — a node with the word along which it was first found.
* `Graph.discover g start` — every node that can be reached from `start`, once each, in the order
  of discovery: level by level, and within a level by the order of the arcs.
-/

set_option autoImplicit false

namespace Automata

/-- A graph with labelled arcs, all of which lead into some finite list of nodes. -/
structure Graph (α : Type) where
  /-- The arcs that leave a node, in the order in which they are followed. -/
  arcs : α → List (Char × α)
  /-- Finitely many nodes have an arc leading to them. -/
  finite : ∃ nodes : List α, ∀ a, ∀ arc ∈ arcs a, arc.2 ∈ nodes

/-- A discovered node and the word along which it was found. -/
structure Visit (α : Type) where
  /-- The labels of the arcs that lead from the start to the node. -/
  word : List Char
  /-- The node. -/
  node : α
deriving DecidableEq, Repr

namespace Graph

variable {α : Type}

/-- The ends of the arcs that leave a visited node, each with its word. -/
def extend (g : Graph α) (v : Visit α) : List (Visit α) :=
  (g.arcs v.node).map fun arc => ⟨v.word ++ [arc.1], arc.2⟩

variable [DecidableEq α]

/-- The visits of nodes that are not seen yet, keeping the first for each node. -/
def firsts (seen : List α) : List (Visit α) → List (Visit α)
  | [] => []
  | v :: vs => if v.node ∈ seen then firsts seen vs else v :: firsts (v.node :: seen) vs

theorem mem_of_mem_firsts {seen : List α} {vs : List (Visit α)} {v : Visit α}
    (h : v ∈ firsts seen vs) : v ∈ vs ∧ v.node ∉ seen := by
  induction vs generalizing seen with
  | nil => exact absurd h List.not_mem_nil
  | cons w vs ih =>
    unfold firsts at h
    split at h
    · exact ⟨List.mem_cons_of_mem w (ih h).1, (ih h).2⟩
    · rename_i hw
      rcases List.mem_cons.1 h with rfl | h
      · exact ⟨List.mem_cons_self, hw⟩
      · exact ⟨List.mem_cons_of_mem w (ih h).1, fun hs => (ih h).2 (List.mem_cons_of_mem _ hs)⟩

theorem nodup_firsts (seen : List α) (vs : List (Visit α)) :
    ((firsts seen vs).map Visit.node).Nodup := by
  induction vs generalizing seen with
  | nil => exact .nil
  | cons w vs ih =>
    unfold firsts
    split
    · exact ih seen
    · refine List.nodup_cons.2 ⟨fun hw => ?_, ih _⟩
      obtain ⟨v, hv, hvw⟩ := List.mem_map.1 hw
      exact (mem_of_mem_firsts hv).2 (hvw ▸ List.mem_cons_self)

/-- The number of entries of `nodes` that are not seen yet. -/
def unseen (nodes seen : List α) : Nat := nodes.countP fun a => decide (a ∉ seen)

theorem unseen_cons (b : α) (nodes seen : List α) :
    unseen (b :: nodes) seen = unseen nodes seen + if b ∈ seen then 0 else 1 := by
  by_cases h : b ∈ seen <;> simp [unseen, h]

theorem unseen_cons_le (nodes seen : List α) (a : α) :
    unseen nodes (a :: seen) ≤ unseen nodes seen :=
  List.countP_mono_left fun b _ hb => by
    simp only [List.mem_cons, not_or, decide_eq_true_eq] at hb ⊢
    exact hb.2

theorem unseen_cons_lt {nodes seen : List α} {a : α} (ha : a ∈ nodes) (hs : a ∉ seen) :
    unseen nodes (a :: seen) < unseen nodes seen := by
  induction nodes with
  | nil => exact absurd ha List.not_mem_nil
  | cons b l ih =>
    rw [unseen_cons, unseen_cons]
    by_cases hb : b = a
    · subst hb
      have := unseen_cons_le l seen b
      rw [if_pos List.mem_cons_self, if_neg hs]
      omega
    · have := ih ((List.mem_cons.1 ha).resolve_left (Ne.symm hb))
      have hiff : b ∈ a :: seen ↔ b ∈ seen := by simp [hb]
      simp only [hiff]
      omega

/-- Newly seen nodes leave at least their number fewer nodes unseen. -/
theorem unseen_append_le {nodes seen new : List α} (hn : new.Nodup) (hu : ∀ a ∈ new, a ∈ nodes)
    (hs : ∀ a ∈ new, a ∉ seen) : unseen nodes (new ++ seen) + new.length ≤ unseen nodes seen := by
  induction new with
  | nil => exact Nat.le_refl _
  | cons a l ih =>
    have hal := List.nodup_cons.1 hn
    have h := ih hal.2 (fun b hb => hu b (List.mem_cons_of_mem a hb))
      (fun b hb => hs b (List.mem_cons_of_mem a hb))
    have hlt : unseen nodes (a :: (l ++ seen)) < unseen nodes (l ++ seen) :=
      unseen_cons_lt (hu a List.mem_cons_self) fun hm =>
        (List.mem_append.1 hm).elim hal.1 (hs a List.mem_cons_self)
    simp only [List.cons_append, List.length_cons]
    omega

/-- One round of the search moves nodes from the unseen ones to the queue and takes one off. -/
theorem explore_measure (g : Graph α) (seen : List α) (v : Visit α) (queue : List (Visit α)) :
    let new := firsts seen (g.extend v)
    unseen g.finite.choose (new.map Visit.node ++ seen) + (queue ++ new).length
      < unseen g.finite.choose seen + (v :: queue).length := by
  intro new
  have h : unseen g.finite.choose (new.map Visit.node ++ seen) + (new.map Visit.node).length
      ≤ unseen g.finite.choose seen := unseen_append_le (nodup_firsts seen (g.extend v))
    (fun a ha => by
      obtain ⟨w, hw, rfl⟩ := List.mem_map.1 ha
      obtain ⟨arc, harc, rfl⟩ := List.mem_map.1 (mem_of_mem_firsts hw).1
      exact g.finite.choose_spec _ _ harc)
    (fun a ha => by
      obtain ⟨w, hw, rfl⟩ := List.mem_map.1 ha
      exact (mem_of_mem_firsts hw).2)
  simp only [List.length_map, List.length_append, List.length_cons] at h ⊢
  omega

/-- Serves a queue of visits: the first one is put out, and the nodes it leads to that have not
been seen join the end of the queue. -/
def explore (g : Graph α) (seen : List α) : List (Visit α) → List (Visit α)
  | [] => []
  | v :: queue =>
    let new := firsts seen (g.extend v)
    v :: explore g (new.map Visit.node ++ seen) (queue ++ new)
termination_by queue => unseen g.finite.choose seen + queue.length
decreasing_by exact explore_measure g seen v queue

/-- All nodes that can be reached from `start`, in the order in which they are discovered. -/
def discover (g : Graph α) (start : α) : List (Visit α) := g.explore [start] [⟨[], start⟩]

/-- The discovered nodes without their words. -/
def nodesFrom (g : Graph α) (start : α) : List α := (g.discover start).map Visit.node

end Graph

end Automata
