import Automata.Proofs.SearchOrder
import Mathlib.Logic.Function.Iterate

/-!
# The layers of a breadth-first search

`SearchOrder` says in which order a search finds nodes that a word leads to one at a time.  Where a
word leads to several nodes at once, its order says less, but the lengths of the words can still be
relied on: the queue never holds more than two layers, so near nodes are found before far ones.

## What is here

* `Graph.Layered` — what holds of the queue all the time: its words do not get shorter, and no two
  of them differ in length by more than one.
* `Graph.prefix_explore` — what waits in the queue is put out first, in its order.
* `Graph.discover_layered` — nodes are put out in the order of the lengths of their words, and
  `Graph.exists_visit_length_le` — **none of these words could be shorter.**
* `Graph.round` — one round of the loop, and `Graph.iterate_round_eq_nil_iff` — **the queue runs
  empty after as many rounds as there are nodes to be found**, and not before;
  `Graph.mem_seen_iff` — what has been seen then is what was found.
-/

set_option autoImplicit false

namespace Automata

namespace Graph

variable {α : Type} {g : Graph α}

/-- What holds of the lengths of the words in the queue all the time. -/
structure Layered (queue : List (Visit α)) : Prop where
  /-- The words do not get shorter. -/
  ascending : queue.Pairwise fun u v => u.word.length ≤ v.word.length
  /-- No word is longer than another one by more than one symbol. -/
  close : ∀ u ∈ queue, ∀ v ∈ queue, u.word.length ≤ v.word.length + 1

theorem Layered.singleton (v : Visit α) : Layered [v] where
  ascending := List.pairwise_singleton _ v
  close := by simp

theorem length_word_of_mem_extend {u v : Visit α} (h : u ∈ g.extend v) :
    u.word.length = v.word.length + 1 := by
  obtain ⟨arc, _, rfl⟩ := mem_extend.1 h
  simp

variable [DecidableEq α]

theorem length_word_of_mem_firsts {seen : List α} {u v : Visit α}
    (h : u ∈ firsts seen (g.extend v)) : u.word.length = v.word.length + 1 :=
  length_word_of_mem_extend (mem_of_mem_firsts h).1

/-- A round keeps the queue layered: what joins it is one symbol longer than what leaves it. -/
theorem Layered.next {seen : List α} {v : Visit α} {queue : List (Visit α)}
    (h : Layered (v :: queue)) : Layered (queue ++ firsts seen (g.extend v)) := by
  obtain ⟨hv, hqueue⟩ := List.pairwise_cons.1 h.ascending
  have hclose := h.close
  simp only [List.mem_cons, forall_eq_or_imp] at hclose
  refine ⟨List.pairwise_append.2 ⟨hqueue, ?_, fun x hx y hy => ?_⟩, fun x hx y hy => ?_⟩
  · refine List.pairwise_of_forall_mem_list fun x hx y hy => ?_
    have := length_word_of_mem_firsts hx
    have := length_word_of_mem_firsts hy
    omega
  · rw [length_word_of_mem_firsts hy]
    exact (hclose.2 x hx).1
  · rcases List.mem_append.1 hx with hx | hx <;> rcases List.mem_append.1 hy with hy | hy
    · exact (hclose.2 x hx).2 y hy
    · have := (hclose.2 x hx).1
      rw [length_word_of_mem_firsts hy]
      omega
    · have := hv y hy
      rw [length_word_of_mem_firsts hx]
      omega
    · rw [length_word_of_mem_firsts hx, length_word_of_mem_firsts hy]
      omega

/-! ## The loop -/

/-- What is put out has no shorter word than the first visit of the queue. -/
theorem Layered.length_le_of_mem_explore {seen seen' : List α} {u v : Visit α}
    {queue : List (Visit α)} (h : Layered (v :: queue))
    (hu : u ∈ g.explore seen' (queue ++ firsts seen (g.extend v))) :
    v.word.length ≤ u.word.length := by
  obtain ⟨x, hx, w, _, hword⟩ := explore_sound hu
  rw [hword, List.length_append]
  rcases List.mem_append.1 hx with hx | hx
  · have := (List.pairwise_cons.1 h.ascending).1 x hx
    omega
  · have := length_word_of_mem_firsts hx
    omega

/-- The queue is put out first, in its own order. -/
theorem prefix_explore (seen : List α) (queue : List (Visit α)) :
    queue <+: g.explore seen queue := by
  fun_induction explore g seen queue with
  | case1 => exact List.prefix_refl _
  | case2 seen v queue new ih =>
    exact List.cons_prefix_cons.2 ⟨rfl, (List.prefix_append _ _).trans ih⟩

/-- Visits are put out in the order of the lengths of their words. -/
theorem explore_layered {seen : List α} {queue : List (Visit α)} (h : Layered queue) :
    (g.explore seen queue).Pairwise fun u v => u.word.length ≤ v.word.length := by
  fun_induction explore g seen queue with
  | case1 => exact .nil
  | case2 seen v queue new ih =>
    exact List.pairwise_cons.2 ⟨fun u hu => h.length_le_of_mem_explore hu, ih h.next⟩

/-- What follows from a visit by an arc was seen before, or is put out along a word that is longer
by one symbol at most. -/
theorem explore_near {seen : List α} {queue : List (Visit α)} (hq : Layered queue) {v : Visit α}
    (h : v ∈ g.explore seen queue) {arc : Char × α} (harc : arc ∈ g.arcs v.node) :
    arc.2 ∈ seen ∨
      ∃ u ∈ g.explore seen queue, u.node = arc.2 ∧ u.word.length ≤ v.word.length + 1 := by
  fun_induction explore g seen queue with
  | case1 => exact absurd h List.not_mem_nil
  | case2 seen first queue new ih =>
    have hnew : ∀ x ∈ new, x ∈ g.explore (new.map Visit.node ++ seen) (queue ++ new) :=
      fun x hx => mem_explore_of_mem (List.mem_append_right _ hx)
    rcases List.mem_cons.1 h with rfl | h
    · by_cases hs : arc.2 ∈ seen
      · exact .inl hs
      · have hmem : ⟨v.word ++ [arc.1], arc.2⟩ ∈ g.extend v := mem_extend.2 ⟨arc, harc, rfl⟩
        obtain ⟨x, hx, hxn⟩ := exists_mem_firsts hmem hs
        exact .inr ⟨x, List.mem_cons_of_mem _ (hnew x hx), hxn,
          Nat.le_of_eq (length_word_of_mem_firsts hx)⟩
    · rcases ih hq.next h with hs | ⟨x, hx, hle⟩
      · rcases List.mem_append.1 hs with hn | hs
        · -- the node was found by the visit that is put out now, which is no longer than `v`
          obtain ⟨x, hx, hxn⟩ := List.mem_map.1 hn
          have hlen := length_word_of_mem_firsts hx
          have hle := hq.length_le_of_mem_explore h
          exact .inr ⟨x, List.mem_cons_of_mem _ (hnew x hx), hxn, by omega⟩
        · exact .inl hs
      · exact .inr ⟨x, List.mem_cons_of_mem _ hx, hle⟩

/-! ## The search from one node -/

/-- **Near nodes are found before far ones.** -/
theorem discover_layered (g : Graph α) (start : α) :
    (g.discover start).Pairwise fun u v => u.word.length ≤ v.word.length :=
  explore_layered (.singleton _)

/-- **Whatever can be walked to is found along no longer word.** -/
theorem exists_visit_length_le {start a : α} {w : List Char} (h : g.Walk start w a) :
    ∃ v ∈ g.discover start, v.node = a ∧ v.word.length ≤ w.length := by
  have hstart : (⟨[], start⟩ : Visit α) ∈ g.discover start := mem_explore_of_mem List.mem_cons_self
  induction w using List.reverseRecOn generalizing a with
  | nil =>
    cases h
    exact ⟨_, hstart, rfl, Nat.le_refl 0⟩
  | append_singleton w c ih =>
    obtain ⟨d, hd, harc⟩ := h.of_concat
    obtain ⟨v, hv, rfl, hle⟩ := ih hd
    rw [List.length_append, List.length_singleton]
    rcases explore_near (.singleton _) hv harc with hs | ⟨u, hu, hun, hule⟩
    · exact ⟨_, hstart, (List.mem_singleton.1 hs).symm, Nat.zero_le _⟩
    · exact ⟨u, hu, hun, by omega⟩

/-! ## How long the search takes -/

/-- One round of the search on the seen nodes and the queue.  The first visit leaves the queue, and
the nodes it leads to that have not been seen join it.  An empty queue stays empty. -/
def round (g : Graph α) : List α × List (Visit α) → List α × List (Visit α)
  | (seen, []) => (seen, [])
  | (seen, v :: queue) =>
    let new := firsts seen (g.extend v)
    (new.map Visit.node ++ seen, queue ++ new)

theorem iterate_round_nil (seen : List α) (k : Nat) : g.round^[k] (seen, []) = (seen, []) :=
  Function.iterate_fixed rfl k

/-- **The queue runs empty after as many rounds as visits are put out**, and not before. -/
theorem iterate_round_eq_nil_iff (seen : List α) (queue : List (Visit α)) :
    ∀ k, (g.round^[k] (seen, queue)).2 = [] ↔ (g.explore seen queue).length ≤ k := by
  fun_induction explore g seen queue with
  | case1 seen => simp [iterate_round_nil]
  | case2 seen v queue new ih =>
    intro k
    cases k with
    | zero => simp
    | succ k =>
      rw [Function.iterate_succ_apply, List.length_cons, Nat.succ_le_succ_iff]
      exact ih k

/-- **When the queue has run empty, the nodes that have been seen are those that were seen before
and those that were put out.** -/
theorem mem_seen_iff {seen : List α} {queue : List (Visit α)} {a : α} {k : Nat}
    (hseen : ∀ v ∈ queue, v.node ∈ seen) (h : (g.round^[k] (seen, queue)).2 = []) :
    a ∈ (g.round^[k] (seen, queue)).1 ↔ a ∈ seen ∨ ∃ v ∈ g.explore seen queue, v.node = a := by
  revert k
  fun_induction explore g seen queue with
  | case1 seen => simp [iterate_round_nil]
  | case2 seen v queue new ih =>
    intro k h
    obtain ⟨k, rfl⟩ : ∃ j, k = j + 1 := by
      refine Nat.exists_eq_succ_of_ne_zero ?_
      rintro rfl
      simp at h
    have hv : v.node ∈ seen := hseen v List.mem_cons_self
    have hnew : ∀ u ∈ new, u ∈ g.explore (new.map Visit.node ++ seen) (queue ++ new) :=
      fun u hu => mem_explore_of_mem (List.mem_append_right _ hu)
    rw [Function.iterate_succ_apply] at h ⊢
    rw [round, ih ?_ h]
    · simp only [List.mem_append, List.mem_map, List.mem_cons, exists_eq_or_imp]
      constructor
      · rintro ((⟨u, hu, rfl⟩ | hs) | hout)
        · exact .inr (.inr ⟨u, hnew u hu, rfl⟩)
        · exact .inl hs
        · exact .inr (.inr hout)
      · rintro (hs | rfl | hout)
        · exact .inl (.inr hs)
        · exact .inl (.inr hv)
        · exact .inr hout
    · intro u hu
      rcases List.mem_append.1 hu with hold | hnew
      · exact List.mem_append_right _ (hseen u (List.mem_cons_of_mem _ hold))
      · exact List.mem_append_left _ (List.mem_map_of_mem hnew)

end Graph

end Automata
