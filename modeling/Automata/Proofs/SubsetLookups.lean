import Automata.Proofs.Determinization
import Automata.Proofs.SearchLayers

/-!
# The lookups of the subset construction

The construction is a loop over a queue of sets.  A set gets its name when it joins the queue, and
when it is served, the name is looked up again; there is no way on if it has none.  Here this lookup
may fail.

## What is here

* `NFA.Construction` — what the loop remembers; `NFA.Construction.meet` — a set comes up, and
  `NFA.construct?` — a pass of the loop, `NFA.constructed?` — several of them.
* `NFA.nameAll` — names for all sets of a list, in its order; `NFA.nameAll_mono` — the names of
  the first sets do not depend on those that come later.
* `NFA.Construction.Follows` — what the loop has done by the time the search has come so far, and
  `NFA.Construction.Follows.construct?` — **a pass finds the name it asks for, and does a round of
  the search.**
* `NFA.ConstructsSafely`, `NFA.exists_constructed` — **no pass fails, and the loop ends with the
  determinized automaton.**
-/

set_option autoImplicit false

namespace Automata

namespace NFA

variable {A : NFA}

/-! ## The loop -/

/-- What the construction remembers. -/
structure Construction where
  /-- The sets that have come up, with their names. -/
  names : List (FinSet State × State)
  /-- The sets that wait. -/
  queue : List (FinSet State)
  /-- The names of the served sets that hold a final state. -/
  finals : List State
  /-- The moves from the served sets. -/
  edges : List Edge

/-- A set comes up on the way from the set called `source`.  If it has not come up before, it gets
a name and joins the queue. -/
def Construction.meet (x : Construction) (source : State)
    (arc : Char × FinSet State) : Construction :=
  match x.names.lookup arc.2 with
  | some name => { x with edges := x.edges ++ [⟨source, arc.1, name⟩] }
  | none =>
    let name := unused (x.names.map Prod.snd) (braced arc.2.toList)
    { x with
      names := x.names ++ [(arc.2, name)]
      queue := x.queue ++ [arc.2]
      edges := x.edges ++ [⟨source, arc.1, name⟩] }

theorem Construction.meet_of_some {source name : State} {x : Construction}
    {arc : Char × FinSet State} (h : x.names.lookup arc.2 = some name) :
    x.meet source arc = { x with edges := x.edges ++ [⟨source, arc.1, name⟩] } := by
  rw [meet, h]

theorem Construction.meet_of_none {source : State} {x : Construction} {arc : Char × FinSet State}
    (h : x.names.lookup arc.2 = none) :
    x.meet source arc =
      { names := x.names ++ [(arc.2, unused (x.names.map Prod.snd) (braced arc.2.toList))]
        queue := x.queue ++ [arc.2]
        finals := x.finals
        edges := x.edges ++
          [⟨source, arc.1, unused (x.names.map Prod.snd) (braced arc.2.toList)⟩] } := by
  rw [meet, h]

/-- One pass of the loop.  The first set leaves the queue, and must have a name.  If no set waits,
nothing happens any more. -/
def construct? (A : NFA) (x : Construction) : Option Construction :=
  match x.queue with
  | [] => some x
  | active :: queue => do
    let source ← x.names.lookup active
    let finals := if active.meets A.finals then x.finals ++ [source] else x.finals
    return (A.subsetGraph.arcs active).foldl (fun y arc => y.meet source arc)
      { x with queue := queue, finals := finals }

theorem construct?_of_cons {x : Construction} {active : FinSet State} {queue : List (FinSet State)}
    {source : State} (hqueue : x.queue = active :: queue)
    (hsource : x.names.lookup active = some source) :
    A.construct? x = some ((A.subsetGraph.arcs active).foldl (fun y arc => y.meet source arc)
      { x with
        queue := queue
        finals := if active.meets A.finals then x.finals ++ [source] else x.finals }) := by
  rw [construct?, hqueue]
  simp only [hsource]
  rfl

/-- What the construction remembers after `k` passes, if none of them fails. -/
def constructed? (A : NFA) : Nat → Option Construction
  | 0 =>
    let start := FinSet.singleton A.start
    some { names := [(start, braced start.toList)], queue := [start], finals := [], edges := [] }
  | k + 1 => (A.constructed? k).bind A.construct?

/-- The automaton that has been constructed. -/
def Construction.toDFA (x : Construction) (A : NFA) : DFA :=
  let moves := FunctionalRelation.ofList x.edges
  { states := FinSet.ofList (x.names.map Prod.snd)
    alphabet := A.alphabet
    start := braced [A.start]
    finals := FinSet.ofList x.finals
    edges := moves.edges
    functional := moves.functional }

/-! ## Names in the order of discovery -/

/-- Names for all sets of a list, in its order. -/
def nameAll (sets : List (FinSet State)) : List (FinSet State × State) :=
  sets.zip (supply [] (sets.map fun s => braced s.toList))

theorem namedSubsets_eq (A : NFA) : A.namedSubsets = nameAll A.subsets := rfl

theorem supply_concat (taken requests : List String) (r : String) :
    supply taken (requests ++ [r]) =
      supply taken requests ++ [unused (supply taken requests ++ taken) r] := by
  induction requests generalizing taken with
  | nil => rfl
  | cons s requests ih =>
    rw [List.cons_append, supply, ih, supply, List.cons_append]
    congr 3
    exact unused_congr (fun n => by simp [or_left_comm]) r

@[simp] theorem map_fst_nameAll (sets : List (FinSet State)) : (nameAll sets).map Prod.fst = sets :=
  List.map_fst_zip (by simp)

theorem map_snd_nameAll (sets : List (FinSet State)) :
    (nameAll sets).map Prod.snd = supply [] (sets.map fun s => braced s.toList) :=
  List.map_snd_zip (by simp)

/-- The name of one more set is chosen as the loop chooses it. -/
theorem nameAll_concat (sets : List (FinSet State)) (s : FinSet State) :
    nameAll (sets ++ [s]) =
      nameAll sets ++ [(s, unused ((nameAll sets).map Prod.snd) (braced s.toList))] := by
  rw [map_snd_nameAll, nameAll, List.map_append, List.map_singleton, supply_concat,
    List.append_nil, List.zip_append (by simp)]
  rfl

/-- The names of the first sets do not depend on the others. -/
theorem nameAll_mono {sets sets' : List (FinSet State)} (h : sets <+: sets') :
    nameAll sets <+: nameAll sets' := by
  obtain ⟨later, rfl⟩ := h
  induction later using List.reverseRecOn with
  | nil => simp
  | append_singleton later s ih =>
    rw [← List.append_assoc, nameAll_concat]
    exact ih.trans (List.prefix_append _ _)

theorem exists_lookup_nameAll_iff {sets : List (FinSet State)} {s : FinSet State} :
    (∃ q, (nameAll sets).lookup s = some q) ↔ s ∈ sets := by
  rw [← Option.isSome_iff_exists, List.lookup_isSome_iff]
  constructor
  · rintro ⟨p, hp, hs⟩
    have hmem := List.mem_map_of_mem (f := Prod.fst) hp
    rwa [map_fst_nameAll, ← beq_iff_eq.1 hs] at hmem
  · intro hs
    rw [← map_fst_nameAll sets] at hs
    obtain ⟨p, hp, rfl⟩ := List.mem_map.1 hs
    exact ⟨p, hp, beq_self_eq_true p.1⟩

/-- The name of one of the first sets is its name among all. -/
theorem lookup_of_initial {sets : List (FinSet State)} {named : List (FinSet State × State)}
    (hnaming : Naming named) (h : nameAll sets <+: named) {s : FinSet State} {q : State}
    (hs : (nameAll sets).lookup s = some q) : named.lookup s = some q := by
  obtain ⟨front, back, hsplit, _⟩ := List.lookup_eq_some_iff.1 hs
  have hmem : (s, q) ∈ nameAll sets := hsplit ▸ List.mem_append_right _ List.mem_cons_self
  exact hnaming.lookup_eq_some_iff.2 (h.subset hmem)

/-! ## A pass is a round -/

/-- The moves from one set, if the sets are called so. -/
def movesFrom (A : NFA) (named : List (FinSet State × State)) (active : FinSet State)
    (name : State) : List Edge :=
  (A.subsetGraph.arcs active).filterMap fun arc =>
    (named.lookup arc.2).map fun name' => ⟨name, arc.1, name'⟩

theorem subsetEdges_eq (A : NFA) (named : List (FinSet State × State)) :
    A.subsetEdges named = named.flatMap fun p => A.movesFrom named p.1 p.2 := rfl

/-- The arcs as visits of their ends. -/
def visits (word : List Char) (arcs : List (Char × FinSet State)) : List (Visit (FinSet State)) :=
  arcs.map fun arc => ⟨word ++ [arc.1], arc.2⟩

/-- The sets that come up join the names and the queue as the new visits of a round do, and all
moves are noted. -/
theorem Construction.foldl_meet {named : List (FinSet State × State)} (source : State)
    {word : List Char} (arcs : List (Char × FinSet State)) {x : Construction}
    {found seen : List (FinSet State)} (hnames : x.names = nameAll found)
    (hseen : ∀ s, s ∈ seen ↔ s ∈ found)
    (hnamed : nameAll (found ++ (Graph.firsts seen (visits word arcs)).map Visit.node) <+: named)
    (hnaming : Naming named) :
    arcs.foldl (fun y arc => y.meet source arc) x =
      { names := nameAll (found ++ (Graph.firsts seen (visits word arcs)).map Visit.node)
        queue := x.queue ++ (Graph.firsts seen (visits word arcs)).map Visit.node
        finals := x.finals
        edges := x.edges ++ arcs.filterMap fun arc =>
          (named.lookup arc.2).map fun name' => ⟨source, arc.1, name'⟩ } := by
  induction arcs generalizing x found seen with
  | nil =>
    obtain ⟨names, queue, finals, edges⟩ := x
    simpa [visits, Graph.firsts] using hnames
  | cons arc arcs ih =>
    rw [List.foldl_cons]
    rw [visits, List.map_cons, Graph.firsts, ← visits] at hnamed ⊢
    by_cases hs : arc.2 ∈ seen
    · obtain ⟨name, hname⟩ := exists_lookup_nameAll_iff.2 ((hseen _).1 hs)
      rw [if_pos hs] at hnamed ⊢
      have hinitial := (nameAll_mono (List.prefix_append _ _)).trans hnamed
      have hlater := lookup_of_initial hnaming hinitial hname
      have hrest := ih (x := { x with edges := x.edges ++ [⟨source, arc.1, name⟩] }) hnames hseen
        hnamed
      rw [meet_of_some (hnames ▸ hname), hrest]
      simp [hlater]
    · have hnone : (nameAll found).lookup arc.2 = none := by
        rw [Option.eq_none_iff_forall_ne_some]
        exact fun q hq => hs ((hseen _).2 (exists_lookup_nameAll_iff.1 ⟨q, hq⟩))
      rw [if_neg hs] at hnamed ⊢
      rw [List.map_cons, List.append_cons] at hnamed ⊢
      have hconcat := nameAll_concat found arc.2
      have hlater : named.lookup arc.2 =
          some (unused ((nameAll found).map Prod.snd) (braced arc.2.toList)) := by
        have hinitial := (nameAll_mono (List.prefix_append _ _)).trans hnamed
        exact hnaming.lookup_eq_some_iff.2 (hinitial.subset (by simp [hconcat]))
      have hnext : x.names ++ [(arc.2, unused (x.names.map Prod.snd) (braced arc.2.toList))] =
          nameAll (found ++ [arc.2]) := by rw [hnames, hconcat]
      have hseen' : ∀ s, s ∈ arc.2 :: seen ↔ s ∈ found ++ [arc.2] := by simp [hseen, or_comm]
      rw [meet_of_none (hnames ▸ hnone), ih (x := ⟨_, _, _, _⟩) hnext hseen' hnamed]
      simp [hlater, hnames]

/-- What the construction has done by the time that the sets `done` have been served and the search
has come as far as `y`. -/
structure Construction.Follows (x : Construction) (A : NFA) (done : List (FinSet State))
    (y : List (FinSet State) × List (Visit (FinSet State))) : Prop where
  /-- The served sets are the first that the search finds. -/
  subsets_eq : A.subsets = done ++ (A.subsetGraph.explore y.1 y.2).map Visit.node
  /-- The same sets have been seen. -/
  mem_seen_iff : ∀ s, s ∈ y.1 ↔ s ∈ done ++ x.queue
  /-- The same sets wait. -/
  queue_eq : x.queue = y.2.map Visit.node
  /-- The sets that have been served and those that wait have names. -/
  names_eq : x.names = nameAll (done ++ x.queue)
  /-- The served sets that hold a final state have been noted. -/
  finals_eq : x.finals =
    ((nameAll done).filter fun p => p.1.meets A.finals).map Prod.snd
  /-- All moves from the served sets have been noted. -/
  edges_eq : x.edges = (nameAll done).flatMap fun p => A.movesFrom A.namedSubsets p.1 p.2

namespace Construction.Follows

variable {x : Construction} {done : List (FinSet State)}
  {y : List (FinSet State) × List (Visit (FinSet State))}

/-- The names that have been given are names of the discovered subsets. -/
theorem names_initial (h : x.Follows A done y) : x.names <+: A.namedSubsets := by
  rw [h.names_eq, namedSubsets_eq]
  refine nameAll_mono ?_
  rw [h.subsets_eq, h.queue_eq, List.prefix_append_right_inj]
  exact (Graph.prefix_explore _ _).map Visit.node

/-- **A set that waits has a name.** -/
theorem exists_lookup (h : x.Follows A done y) {s : FinSet State} (hs : s ∈ x.queue) :
    ∃ q, x.names.lookup s = some q := by
  rw [h.names_eq]
  exact exists_lookup_nameAll_iff.2 (List.mem_append_right _ hs)

/-- What is looked up for the set that is served is its name among all. -/
theorem nameAll_done (h : x.Follows A done y) {s : FinSet State} {queue : List (FinSet State)}
    (hqueue : x.queue = s :: queue) {q : State} (hq : x.names.lookup s = some q) :
    nameAll (done ++ [s]) = nameAll done ++ [(s, q)] := by
  have hnaming := A.naming_namedSubsets
  have hlookup : A.namedSubsets.lookup s = some q :=
    lookup_of_initial hnaming (h.names_eq ▸ h.names_initial) (h.names_eq ▸ hq)
  have hinitial : nameAll (done ++ [s]) <+: A.namedSubsets := by
    refine (nameAll_mono ?_).trans (h.names_eq ▸ h.names_initial)
    rw [hqueue, List.append_cons done s queue]
    exact List.prefix_append _ _
  have hconcat := nameAll_concat done s
  have hchosen : A.namedSubsets.lookup s =
      some (unused ((nameAll done).map Prod.snd) (braced s.toList)) :=
    hnaming.lookup_eq_some_iff.2 (hinitial.subset (by simp [hconcat]))
  rw [hconcat, Option.some_inj.1 (hlookup.symm.trans hchosen)]

/-- **A pass does a round of the search.**  The name it asks for is there. -/
theorem construct? (h : x.Follows A done y) :
    ∃ x' done', A.construct? x = some x' ∧ x'.Follows A done' (A.subsetGraph.round y) := by
  obtain ⟨seen, queue⟩ := y
  cases queue with
  | nil =>
    have hqueue : x.queue = [] := h.queue_eq
    exact ⟨x, done, by rw [NFA.construct?, hqueue], h⟩
  | cons v queue =>
    have hqueue : x.queue = v.node :: queue.map Visit.node := h.queue_eq
    obtain ⟨q, hq⟩ := h.exists_lookup (hqueue ▸ List.mem_cons_self)
    have hdone := h.nameAll_done hqueue hq
    have hsubsets := h.subsets_eq
    rw [Graph.explore, List.map_cons, List.append_cons] at hsubsets
    let new := (Graph.firsts seen (A.subsetGraph.extend v)).map Visit.node
    have hfound : done ++ x.queue ++ new = done ++ [v.node] ++ (queue.map Visit.node ++ new) := by
      simp [hqueue]
    have hnamed : nameAll (done ++ x.queue ++ new) <+: A.namedSubsets := by
      refine nameAll_mono ?_
      rw [hfound, hsubsets, List.prefix_append_right_inj, ← List.map_append]
      exact (Graph.prefix_explore _ _).map Visit.node
    have hpass := foldl_meet q (A.subsetGraph.arcs v.node)
      (x := ⟨x.names, queue.map Visit.node,
        if v.node.meets A.finals then x.finals ++ [q] else x.finals, x.edges⟩)
      h.names_eq h.mem_seen_iff hnamed A.naming_namedSubsets
    refine ⟨⟨nameAll (done ++ x.queue ++ new), queue.map Visit.node ++ new,
      if v.node.meets A.finals then x.finals ++ [q] else x.finals,
      x.edges ++ A.movesFrom A.namedSubsets v.node q⟩, done ++ [v.node], ?_, ?_⟩
    · exact (construct?_of_cons hqueue hq).trans (congrArg some hpass)
    · refine ⟨hsubsets, fun s => ?_, by simp [Graph.round, new], by rw [hfound], ?_, ?_⟩
      · have hseen := h.mem_seen_iff s
        simp only [Graph.round, List.mem_append, List.mem_singleton] at hseen ⊢
        rw [hseen, hqueue]
        simp only [List.mem_cons, new]
        tauto
      · rw [hdone, List.filter_append, List.map_append, ← h.finals_eq]
        by_cases hfinal : v.node.meets A.finals = true
        · simp [hfinal]
        · simp [hfinal]
      · rw [hdone, List.flatMap_append, ← h.edges_eq]
        simp

end Construction.Follows

/-- Before the first pass nothing has been served. -/
theorem follows_start (A : NFA) : ∃ x, A.constructed? 0 = some x ∧
    x.Follows A [] ([FinSet.singleton A.start], [⟨[], FinSet.singleton A.start⟩]) := by
  refine ⟨_, rfl, rfl, by simp, rfl, ?_, rfl, rfl⟩
  simp [nameAll, supply, unused]

/-- **No pass fails**, and every pass does a round of the search. -/
theorem follows_constructed (A : NFA) (k : Nat) : ∃ x done, A.constructed? k = some x ∧
    x.Follows A done
      (A.subsetGraph.round^[k] ([FinSet.singleton A.start], [⟨[], FinSet.singleton A.start⟩])) := by
  induction k with
  | zero =>
    obtain ⟨x, hx, hfollows⟩ := A.follows_start
    exact ⟨x, [], hx, hfollows⟩
  | succ k ih =>
    obtain ⟨x, done, hx, hfollows⟩ := ih
    obtain ⟨x', done', hx', hfollows'⟩ := hfollows.construct?
    rw [Function.iterate_succ_apply']
    exact ⟨x', done', by rw [constructed?, hx]; exact hx', hfollows'⟩

/-- **When no set waits any more, the determinized automaton has been constructed.** -/
theorem Construction.Follows.toDFA_eq {x : Construction} {done : List (FinSet State)}
    {y : List (FinSet State) × List (Visit (FinSet State))} (h : x.Follows A done y)
    (hqueue : x.queue = []) : x.toDFA A = A.determinize := by
  have hended : y.2 = [] := List.map_eq_nil_iff.1 (h.queue_eq.symm.trans hqueue)
  have hdone : A.subsets = done := by
    rw [h.subsets_eq, hended, Graph.explore, List.map_nil, List.append_nil]
  have hnames : x.names = A.namedSubsets := by
    rw [h.names_eq, hqueue, List.append_nil, namedSubsets_eq, hdone]
  have hfinals : x.finals = (A.namedSubsets.filter fun p => p.1.meets A.finals).map Prod.snd := by
    rw [h.finals_eq, namedSubsets_eq, hdone]
  have hedges : x.edges = A.subsetEdges A.namedSubsets := by
    rw [h.edges_eq, subsetEdges_eq, namedSubsets_eq, hdone]
  rw [Construction.toDFA, hnames, hfinals, hedges]
  rfl

/-- What is true of the loop after some passes. -/
structure ConstructsSafely (A : NFA) (k : Nat) (x : Construction) : Prop where
  /-- No pass has failed. -/
  constructed : A.constructed? k = some x
  /-- Every set that waits has a name, so that the next pass will not fail either. -/
  exists_lookup : ∀ s ∈ x.queue, ∃ q, x.names.lookup s = some q
  /-- The queue runs empty after one pass for each set that can be active. -/
  ends_iff : x.queue = [] ↔ A.subsets.length ≤ k
  /-- Then the determinized automaton has been constructed. -/
  toDFA_eq : x.queue = [] → x.toDFA A = A.determinize

/-- **No pass of the subset construction fails**, and it ends with the determinized automaton. -/
theorem exists_constructed (A : NFA) (k : Nat) : ∃ x, A.ConstructsSafely k x := by
  obtain ⟨x, done, hx, hfollows⟩ := A.follows_constructed k
  refine ⟨x, hx, fun s hs => hfollows.exists_lookup hs, ?_, hfollows.toDFA_eq⟩
  rw [hfollows.queue_eq, List.map_eq_nil_iff, Graph.iterate_round_eq_nil_iff, subsets,
    Graph.nodesFrom, List.length_map, Graph.discover]

end NFA

end Automata
