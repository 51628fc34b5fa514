import Automata.Proofs.Search
import Automata.Proofs.WordOrder
import Mathlib.Data.List.Induction

/-!
# In which order a breadth-first search finds its nodes

If the arcs of every node ascend by label, a word leads to one node at most, and the search finds
its nodes in the order of the least words that lead to them.

## What is here

* `Graph.Ascending` — the arcs of every node ascend by label.
* `Graph.Ranked` — what holds of the queue all the time: its words ascend, and all of them come
  before what any of them is extended to.
* `Graph.mem_firsts_iff` — what a round adds to the queue: the first visit of each new node.
* `Graph.explore_ascending`, `Graph.explore_nearest` — what this says about a run of the loop.
* `Graph.discover_ascending` and `Graph.mem_discover_iff` — **each node that can be walked to is
  found along the least word that leads to it, and earlier words come first.**
-/

set_option autoImplicit false

namespace Automata

/-- In a list with one order throughout, the first element that passes a test comes before all
others that do. -/
theorem eq_or_rel_of_find? {β : Type} {R : β → β → Prop} {p : β → Bool} {l : List β} {a b : β}
    (hl : l.Pairwise R) (ha : l.find? p = some a) (hb : b ∈ l) (hp : p b = true) :
    b = a ∨ R a b := by
  obtain ⟨_, front, back, rfl, hfront⟩ := List.find?_eq_some_iff_append.1 ha
  rcases List.mem_append.1 hb with hb | hb
  · have hfail := hfront b hb
    rw [hp] at hfail
    cases hfail
  · rcases List.mem_cons.1 hb with rfl | hb
    · exact .inl rfl
    · exact .inr ((List.pairwise_cons.1 (List.pairwise_append.1 hl).2.1).1 b hb)

namespace Graph

variable {α : Type} {g : Graph α}

/-- The arcs of every node ascend by label, so that a label leads to one node at most. -/
def Ascending (g : Graph α) : Prop := ∀ a, (g.arcs a).Pairwise fun x y => x.1 < y.1

/-- The last arc of a walk. -/
theorem Walk.of_concat {a b : α} {w : List Char} {c : Char} (h : g.Walk a (w ++ [c]) b) :
    ∃ d, g.Walk a w d ∧ (c, b) ∈ g.arcs d := by
  induction w generalizing a with
  | nil =>
    cases h with
    | cons harc h => cases h; exact ⟨a, .nil a, harc⟩
  | cons c' w ih =>
    cases h with
    | cons harc h =>
      obtain ⟨d, hd, hlast⟩ := ih h
      exact ⟨d, .cons harc hd, hlast⟩

/-- The visits that extend a visit ascend. -/
theorem Ascending.extend (hg : g.Ascending) (v : Visit α) :
    (g.extend v).Pairwise fun x y => Precedes x.word y.word :=
  List.pairwise_map.2 ((hg v.node).imp fun h => .concat_of_lt v.word h)

/-- What holds of the queue of a search all the time. -/
structure Ranked (queue : List (Visit α)) : Prop where
  /-- Earlier words come first. -/
  ascending : queue.Pairwise fun u v => Precedes u.word v.word
  /-- No word comes after an extension of another one. -/
  extended : ∀ u ∈ queue, ∀ v ∈ queue, ∀ c, Precedes u.word (v.word ++ [c])

theorem Ranked.singleton (v : Visit α) : Ranked [v] where
  ascending := List.pairwise_singleton _ v
  extended u hu w hw c := by
    rw [List.mem_singleton] at hu hw
    subst hu hw
    exact .append _ (List.cons_ne_nil _ _)

theorem Ranked.precedes_of_mem_tail {u v : Visit α} {queue : List (Visit α)}
    (h : Ranked (v :: queue)) (hu : u ∈ queue) : Precedes v.word u.word :=
  (List.pairwise_cons.1 h.ascending).1 u hu

variable [DecidableEq α]

theorem firsts_sublist (seen : List α) (vs : List (Visit α)) : (firsts seen vs).Sublist vs := by
  induction vs generalizing seen with
  | nil => exact .slnil
  | cons v vs ih =>
    unfold firsts
    split
    · exact (ih seen).cons v
    · exact (ih _).cons_cons v

/-- In a list with one order throughout, the visit that is kept for a node is the first one. -/
theorem exists_first {R : Visit α → Visit α → Prop} {seen : List α} {vs : List (Visit α)}
    {v : Visit α} (hvs : vs.Pairwise R) (h : v ∈ vs) (hv : v.node ∉ seen) :
    ∃ u ∈ firsts seen vs, u.node = v.node ∧ (u = v ∨ R u v) := by
  induction vs generalizing seen with
  | nil => exact absurd h List.not_mem_nil
  | cons w vs ih =>
    have hw := List.pairwise_cons.1 hvs
    unfold firsts
    split
    · rename_i hseen
      rcases List.mem_cons.1 h with rfl | h
      · exact absurd hseen hv
      · exact ih hw.2 h hv
    · by_cases hvw : w.node = v.node
      · exact ⟨w, List.mem_cons_self, hvw, (List.mem_cons.1 h).imp Eq.symm (hw.1 v)⟩
      · have h : v ∈ vs := (List.mem_cons.1 h).resolve_left fun e => hvw (e ▸ rfl)
        have hv' : v.node ∉ w.node :: seen := fun hm =>
          (List.mem_cons.1 hm).elim (fun e => hvw e.symm) hv
        obtain ⟨u, hu, hle⟩ := ih hw.2 h hv'
        exact ⟨u, List.mem_cons_of_mem _ hu, hle⟩

/-- In a list with one order throughout, the visits that are kept are the first ones of nodes that
are not seen yet. -/
theorem mem_firsts_iff {R : Visit α → Visit α → Prop} (hR : ∀ u v, R u v → ¬ R v u)
    {seen : List α} {vs : List (Visit α)} (hvs : vs.Pairwise R) {v : Visit α} :
    v ∈ firsts seen vs ↔
      v ∈ vs ∧ v.node ∉ seen ∧ ∀ u ∈ vs, u.node = v.node → v = u ∨ R v u := by
  constructor
  · intro h
    obtain ⟨hv, hseen⟩ := mem_of_mem_firsts h
    refine ⟨hv, hseen, fun u hu huv => ?_⟩
    obtain ⟨w, hw, hwu, hle⟩ := exists_first hvs hu (huv ▸ hseen)
    have hwv : w = v := List.inj_on_of_nodup_map (nodup_firsts seen vs) hw h (hwu.trans huv)
    exact hwv ▸ hle
  · rintro ⟨hv, hseen, hfirst⟩
    obtain ⟨w, hw, hwv, rfl | hlt⟩ := exists_first hvs hv hseen
    · exact hw
    · rcases hfirst w (mem_of_mem_firsts hw).1 hwv with rfl | hlt'
      · exact hw
      · exact absurd hlt' (hR _ _ hlt)

/-! ## The loop -/

/-- The new visits of a round extend the visit that is put out. -/
theorem exists_word_of_mem_new {seen : List α} {u v : Visit α} (h : u ∈ firsts seen (g.extend v)) :
    ∃ c, u.word = v.word ++ [c] := by
  obtain ⟨arc, _, rfl⟩ := mem_extend.1 (mem_of_mem_firsts h).1
  exact ⟨arc.1, rfl⟩

/-- A round keeps the queue ranked. -/
theorem Ranked.next (hg : g.Ascending) {seen : List α} {v : Visit α} {queue : List (Visit α)}
    (h : Ranked (v :: queue)) : Ranked (queue ++ firsts seen (g.extend v)) where
  ascending := by
    refine List.pairwise_append.2 ⟨(List.pairwise_cons.1 h.ascending).2,
      (hg.extend v).sublist (firsts_sublist _ _), fun x hx y hy => ?_⟩
    obtain ⟨c, hc⟩ := exists_word_of_mem_new hy
    exact hc ▸ h.extended x (List.mem_cons_of_mem _ hx) v List.mem_cons_self c
  extended x hx y hy c := by
    rcases List.mem_append.1 hx with hx | hx <;> rcases List.mem_append.1 hy with hy | hy
    · exact h.extended x (List.mem_cons_of_mem _ hx) y (List.mem_cons_of_mem _ hy) c
    · obtain ⟨b, hb⟩ := exists_word_of_mem_new hy
      have hxv := h.extended x (List.mem_cons_of_mem _ hx) v List.mem_cons_self b
      exact (hb ▸ hxv).trans (.append _ (List.cons_ne_nil c []))
    · obtain ⟨a, ha⟩ := exists_word_of_mem_new hx
      exact ha ▸ (h.precedes_of_mem_tail hy).concat a c
    · obtain ⟨a, ha⟩ := exists_word_of_mem_new hx
      obtain ⟨b, hb⟩ := exists_word_of_mem_new hy
      rw [ha, hb]
      refine .of_length_lt ?_
      simp only [List.length_append, List.length_cons, List.length_nil]
      omega

/-- What is put out does not come before the first visit of the queue. -/
theorem Ranked.precedes_of_mem_explore {seen : List α} {u v : Visit α} {queue : List (Visit α)}
    (hv : ∀ x ∈ queue, Precedes v.word x.word) (h : u ∈ g.explore seen queue) :
    Precedes v.word u.word := by
  obtain ⟨x, hx, w, _, hword⟩ := explore_sound h
  exact hword ▸ (hv x hx).append_right w

theorem Ranked.precedes_new {seen : List α} {v : Visit α}
    {queue : List (Visit α)} (h : Ranked (v :: queue)) :
    ∀ x ∈ queue ++ firsts seen (g.extend v), Precedes v.word x.word := by
  intro x hx
  rcases List.mem_append.1 hx with hx | hx
  · exact h.precedes_of_mem_tail hx
  · obtain ⟨c, hc⟩ := exists_word_of_mem_new hx
    exact hc ▸ .append _ (List.cons_ne_nil c [])

/-- Earlier words are put out first. -/
theorem explore_ascending (hg : g.Ascending) {seen : List α} {queue : List (Visit α)}
    (h : Ranked queue) :
    (g.explore seen queue).Pairwise fun u v => Precedes u.word v.word := by
  fun_induction explore g seen queue with
  | case1 => exact .nil
  | case2 seen v queue new ih =>
    refine List.pairwise_cons.2 ⟨fun u hu => ?_, ih (h.next hg)⟩
    exact Ranked.precedes_of_mem_explore h.precedes_new hu

/-- What follows from a visit by an arc was seen before, or is put out along no later word. -/
theorem explore_nearest (hg : g.Ascending) {seen : List α} {queue : List (Visit α)}
    (hq : Ranked queue) {v : Visit α} (h : v ∈ g.explore seen queue) {arc : Char × α}
    (harc : arc ∈ g.arcs v.node) :
    arc.2 ∈ seen ∨ ∃ u ∈ g.explore seen queue, u.node = arc.2 ∧
      (u.word = v.word ++ [arc.1] ∨ Precedes u.word (v.word ++ [arc.1])) := by
  fun_induction explore g seen queue with
  | case1 => exact absurd h List.not_mem_nil
  | case2 seen first queue new ih =>
    have hnew : ∀ x ∈ new, x ∈ g.explore (new.map Visit.node ++ seen) (queue ++ new) :=
      fun x hx => mem_explore_of_mem (List.mem_append_right _ hx)
    rcases List.mem_cons.1 h with rfl | h
    · by_cases hs : arc.2 ∈ seen
      · exact .inl hs
      · have hmem : ⟨v.word ++ [arc.1], arc.2⟩ ∈ g.extend v := mem_extend.2 ⟨arc, harc, rfl⟩
        obtain ⟨x, hx, hxn, hle⟩ := exists_first (hg.extend v) hmem hs
        exact .inr ⟨x, List.mem_cons_of_mem _ (hnew x hx), hxn, hle.imp_left (congrArg Visit.word)⟩
    · rcases ih (hq.next hg) h with hs | ⟨x, hx, hle⟩
      · rcases List.mem_append.1 hs with hn | hs
        · -- the node was found by the visit that is put out now, which comes before `v`
          obtain ⟨x, hx, hxn⟩ := List.mem_map.1 hn
          obtain ⟨c, hc⟩ := exists_word_of_mem_new hx
          have hlt := Ranked.precedes_of_mem_explore hq.precedes_new h
          exact .inr ⟨x, List.mem_cons_of_mem _ (hnew x hx), hxn, .inr (hc ▸ hlt.concat c _)⟩
        · exact .inl hs
      · exact .inr ⟨x, List.mem_cons_of_mem _ hx, hle⟩

/-! ## The search from one node -/

/-- **Earlier words are found first.** -/
theorem discover_ascending (hg : g.Ascending) (start : α) :
    (g.discover start).Pairwise fun u v => Precedes u.word v.word :=
  explore_ascending hg (.singleton _)

/-- Whatever can be walked to is found along no later word. -/
theorem exists_visit_le (hg : g.Ascending) {start a : α} {w : List Char}
    (h : g.Walk start w a) :
    ∃ v ∈ g.discover start, v.node = a ∧ (v.word = w ∨ Precedes v.word w) := by
  have hstart : ∃ v ∈ g.discover start, v.node = start ∧ v.word = [] :=
    ⟨⟨[], start⟩, mem_explore_of_mem List.mem_cons_self, rfl, rfl⟩
  induction w using List.reverseRecOn generalizing a with
  | nil =>
    cases h
    obtain ⟨v, hv, hvn, hvw⟩ := hstart
    exact ⟨v, hv, hvn, .inl hvw⟩
  | append_singleton w c ih =>
    obtain ⟨d, hd, harc⟩ := h.of_concat
    obtain ⟨v, hv, rfl, hle⟩ := ih hd
    rcases explore_nearest hg (.singleton _) hv harc with hs | ⟨u, hu, hun, hule⟩
    · obtain ⟨u, hu, hun, huw⟩ := hstart
      refine ⟨u, hu, hun.trans (List.mem_singleton.1 hs).symm, .inr ?_⟩
      rw [huw]
      exact .append [] (List.append_ne_nil_of_right_ne_nil w (List.cons_ne_nil c []))
    · refine ⟨u, hu, hun, ?_⟩
      rcases hle with hle | hle
      · exact hle ▸ hule
      · exact .inr (hule.elim (fun e => e ▸ hle.concat c c) fun hlt => hlt.trans (hle.concat c c))

/-- **A visit is found exactly if its word is the least that leads to its node.** -/
theorem mem_discover_iff (hg : g.Ascending) {start : α} {v : Visit α} :
    v ∈ g.discover start ↔ g.Walk start v.word v.node ∧
      ∀ w, g.Walk start w v.node → v.word = w ∨ Precedes v.word w := by
  have hunique : ∀ {u v : Visit α}, u ∈ g.discover start → v ∈ g.discover start →
      u.node = v.node → u = v := fun hu hv => List.inj_on_of_nodup_map (nodup_nodesFrom start) hu hv
  refine ⟨fun h => ⟨walk_of_mem_discover h, fun w hw => ?_⟩, fun ⟨hwalk, hleast⟩ => ?_⟩
  · obtain ⟨u, hu, hun, hle⟩ := exists_visit_le hg hw
    exact hunique hu h hun ▸ hle
  · obtain ⟨u, hu, hun, hle⟩ := exists_visit_le hg hwalk
    have hword : u.word = v.word := by
      rcases hle with heq | hlt
      · exact heq
      · rcases hleast _ (hun ▸ walk_of_mem_discover hu) with heq | hlt'
        · exact heq.symm
        · exact absurd hlt' hlt.asymm
    obtain ⟨w, n⟩ := v
    cases u
    cases hun
    cases hword
    exact hu

end Graph

end Automata
