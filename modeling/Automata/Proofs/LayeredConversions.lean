import Automata.Proofs.RelationsAsSets

/-!
# From cells with many targets to cells with one, and back

A map in two layers whose cells hold any number of targets can be turned into one whose cells hold
single targets, if there is a single target in each of them.  The cells come out of a map in no
particular order, so they are sorted before they are gone through, and it is the least of the cells
with several targets that is reported.  In the other direction nothing can go wrong.

All of this is about maps that were filled by insertions.  What such a map holds is known from
`Automata.Proofs.RelationsAsSets`, so the two directions come down to lists of edges in which every
state has at most one target on every symbol.

## What is here

* `Branch` — a state and a symbol with their targets; `TransitionMap.branches` lists those of a map,
  and `TransitionMap.ascending_branches` says in which order.
* `TransitionMap.narrow` and `TransitionMap.widen` — a map as one with single targets, if it can be
  had, and as one with any number of them; `TransitionMap.narrowAlong` and
  `TransitionMap.widenAlong` do this for what is met in a given order.
* `TransitionMap.narrowAlong_eq` — **the order in which branches are met makes no difference**, and
  `TransitionMap.settle_eq` — what going through them comes to.
* `TransitionMap.leastAmbiguity_of_find?` — **the first branch with several targets is the least
  ambiguity** of the edges that were inserted.
* `TransitionMap.ConvertsExactly`, `TransitionMap.converts_exactly` — **each conversion undoes the
  other, as far as it can**, after any insertions.
-/

set_option autoImplicit false

namespace Automata

open Std RelationKind

/-! ## Branches -/

/-- A state and a symbol with the targets that are kept for them. -/
structure Branch where
  /-- The state that is left. -/
  source : State
  /-- The symbol that is read. -/
  symbol : Char
  /-- The states that may be entered. -/
  targets : FinSet State

namespace Branch

/-- Branches are compared by state and then by symbol. -/
def cmp : Branch → Branch → Ordering := compareLex (compareOn source) (compareOn symbol)

instance : TransCmp cmp :=
  inferInstanceAs (TransCmp (compareLex (compareOn source) (compareOn symbol)))

variable {b c : Branch}

theorem cmp_eq_lt_iff :
    cmp b c = .lt ↔ b.source < c.source ∨ b.source = c.source ∧ b.symbol < c.symbol := by
  simp only [cmp, compareLex, compareOn, Ordering.then_eq_lt, compare_lt_iff_lt,
    Std.compare_eq_iff_eq]

theorem cmp_eq_eq_iff : cmp b c = .eq ↔ b.source = c.source ∧ b.symbol = c.symbol := by
  simp [cmp, compareLex_eq_eq, compareOn]

/-- The transitions of the branch. -/
def edges (b : Branch) : List Edge := b.targets.toList.map fun p => ⟨b.source, b.symbol, p⟩

/-- Whether the branch has several targets. -/
def forks (b : Branch) : Bool := 1 < b.targets.size

end Branch

namespace TransitionMap

variable {m : TransitionMap (FinSet State)} {d : TransitionMap State} {b c : Branch}
  {l : List Edge} {q p : State} {a : Char}

/-- The branches of a map, row by row. -/
def branches (m : TransitionMap (FinSet State)) : List Branch :=
  m.entries.flatMap fun row => row.2.entries.map fun cell => ⟨row.1, cell.1, cell.2⟩

theorem mem_branches : b ∈ m.branches ↔ m.cell? b.source b.symbol = some b.targets := by
  simp only [branches, List.mem_flatMap, List.mem_map, cell?_eq_some_iff, FinMap.get?_eq_some_iff]
  constructor
  · intro ⟨⟨q, row⟩, hrow, ⟨a, targets⟩, hcell, hb⟩
    subst hb
    exact ⟨row, hrow, hcell⟩
  · intro ⟨row, hrow, hcell⟩
    exact ⟨(b.source, row), hrow, (b.symbol, b.targets), hcell, rfl⟩

/-- A state and a symbol have one branch. -/
theorem eq_of_mem_branches (hb : b ∈ m.branches) (hc : c ∈ m.branches)
    (hsource : b.source = c.source) (hsymbol : b.symbol = c.symbol) : b = c := by
  rw [mem_branches] at hb hc
  obtain ⟨q, a, targets⟩ := b
  obtain ⟨q', a', targets'⟩ := c
  obtain rfl : q = q' := hsource
  obtain rfl : a = a' := hsymbol
  have htargets : targets = targets' := Option.some.inj (hb.symm.trans hc)
  rw [htargets]

/-- The branches of a map ascend. -/
theorem ascending_branches (m : TransitionMap (FinSet State)) :
    m.branches.Pairwise fun b c => Branch.cmp b c = .lt := by
  refine List.pairwise_flatMap.2
    ⟨fun row _ => ?_, m.ascending.imp fun {row row'} hrow b hb c hc => ?_⟩
  · refine List.pairwise_map.2 (row.2.ascending.imp fun {cell cell'} hcell => ?_)
    exact Branch.cmp_eq_lt_iff.2 (.inr ⟨rfl, compare_lt_iff_lt.1 hcell⟩)
  · obtain ⟨cell, _, rfl⟩ := List.mem_map.1 hb
    obtain ⟨cell', _, rfl⟩ := List.mem_map.1 hc
    exact Branch.cmp_eq_lt_iff.2 (.inl (compare_lt_iff_lt.1 hrow))

/-- The transitions of a map are those of its branches. -/
theorem transitions_eq (m : TransitionMap (FinSet State)) :
    transitions .all m = m.branches.flatMap Branch.edges := by
  simp only [transitions, branches, List.flatMap_assoc, List.flatMap_map]
  rfl

/-! ## The conversions -/

/-- Goes through branches and collects their targets, which must be single. -/
def settle : List Branch → TransitionMap State → Except Error (TransitionMap State)
  | [], d => .ok d
  | b :: rest, d =>
    match b.targets.toList with
    | [] => settle rest d
    | [p] => settle rest (insert .last ⟨b.source, b.symbol, p⟩ d)
    | targets => .error (.ambiguous b.source b.symbol targets)

/-- The map with single targets of branches that are met in the given order, and sorted first. -/
def narrowAlong (order : List Branch) : Except Error (TransitionMap State) :=
  settle (order.mergeSort fun b c => (Branch.cmp b c).isLE) ∅

/-- The map as one with single targets.  If it has a cell with several targets, the error names the
least such cell. -/
def narrow (m : TransitionMap (FinSet State)) : Except Error (TransitionMap State) :=
  narrowAlong m.branches

/-- The map with any number of targets of transitions that are met in the given order. -/
def widenAlong (order : List Edge) : TransitionMap (FinSet State) := (layered .all).fill order

/-- The map as one with any number of targets. -/
def widen (d : TransitionMap State) : TransitionMap (FinSet State) :=
  widenAlong (transitions .last d)

/-- Sorted, the branches of a map are as they are listed row by row. -/
theorem mergeSort_eq_branches {order : List Branch} (h : order.Perm m.branches) :
    (order.mergeSort fun b c => (Branch.cmp b c).isLE) = m.branches := by
  have hperm := List.mergeSort_perm order fun b c => (Branch.cmp b c).isLE
  have hsorted : (order.mergeSort fun b c => (Branch.cmp b c).isLE).Pairwise
      fun b c => (Branch.cmp b c).isLE = true := by
    refine List.pairwise_mergeSort (fun _ _ _ => TransCmp.isLE_trans) (fun b c => ?_) order
    rw [@OrientedCmp.eq_swap _ Branch.cmp _ c b]
    cases Branch.cmp b c <;> rfl
  have hascending : m.branches.Pairwise fun b c => (Branch.cmp b c).isLE = true :=
    m.ascending_branches.imp fun h => by simp [h]
  refine List.Perm.eq_of_pairwise (fun b c hb hc hbc hcb => ?_) hsorted hascending (hperm.trans h)
  -- the comparison does not look at targets, but there is only one branch to compare with
  obtain ⟨hsource, hsymbol⟩ := Branch.cmp_eq_eq_iff.1 (OrientedCmp.isLE_antisymm hbc hcb)
  exact eq_of_mem_branches (h.mem_iff.1 (hperm.mem_iff.1 hb)) hc hsource hsymbol

/-- **The order in which branches are met makes no difference.** -/
theorem narrowAlong_eq {order : List Branch} (h : order.Perm m.branches) :
    narrowAlong order = settle m.branches ∅ := by
  rw [narrowAlong, mergeSort_eq_branches h]

/-- **What going through branches comes to**: the first branch with several targets is reported, and
if there is none, all transitions are inserted. -/
theorem settle_eq (branches : List Branch) (d : TransitionMap State) :
    settle branches d =
      match branches.find? Branch.forks with
      | some b => .error (.ambiguous b.source b.symbol b.targets.toList)
      | none => .ok ((branches.flatMap Branch.edges).foldl (fun r e => insert .last e r) d) := by
  induction branches generalizing d with
  | nil => rfl
  | cons b rest ih =>
    obtain ⟨q, a, ⟨targets, hascending⟩⟩ := b
    match targets with
    | [] => simp [settle, ih, Branch.forks, Branch.edges, FinSet.size]
    | [p] => simp [settle, ih, Branch.forks, Branch.edges, FinSet.size]
    | p :: p' :: targets => simp [settle, Branch.forks, FinSet.size]

/-- A map is narrowed unless one of its branches forks. -/
theorem narrow_eq (m : TransitionMap (FinSet State)) : narrow m =
    match m.branches.find? Branch.forks with
    | some b => .error (.ambiguous b.source b.symbol b.targets.toList)
    | none => .ok ((layered .last).fill (transitions .all m)) := by
  rw [narrow, narrowAlong_eq (.refl _), settle_eq, ← transitions_eq]
  rfl

/-! ## Maps that were filled -/

/-- In the list, every state has at most one target on every symbol. -/
def SingleTargets (l : List Edge) : Prop :=
  ∀ q a p p', (⟨q, a, p⟩ : Edge) ∈ l → (⟨q, a, p'⟩ : Edge) ∈ l → p = p'

section Filled

variable {e : Edge} {x : Error}

theorem mem_transitions_fill_all : e ∈ transitions .all ((layered .all).fill l) ↔ e ∈ l :=
  (lawful_layered .all).mem_transitions_fill

theorem mem_transitions_fill_last :
    e ∈ transitions .last ((layered .last).fill l) ↔ Kept true l e :=
  (lawful_layered .last).mem_transitions_fill

/-- The branches of a map that was filled have the targets that were inserted. -/
theorem targets_eq (hb : b ∈ branches ((layered .all).fill l)) :
    b.targets = (Relation.insertAll l).targets b.source b.symbol := by
  refine FinSet.ext fun p => ?_
  rw [Relation.mem_targets, Relation.mem_insertAll, ← mem_transitions_fill_all, mem_transitions_iff,
    mem_successors_iff, mem_branches.1 hb]
  simp [Cell.all]

theorem forks_iff (hb : b ∈ branches ((layered .all).fill l)) :
    b.forks = true ↔ (Relation.insertAll l).Ambiguous b.source b.symbol := by
  rw [Branch.forks, decide_eq_true_iff, targets_eq hb, Relation.one_lt_size_targets_iff]

/-- An ambiguous state and symbol have a branch, which forks. -/
theorem exists_forks (h : (Relation.insertAll l).Ambiguous q a) :
    ∃ b ∈ branches ((layered .all).fill l), b.source = q ∧ b.symbol = a ∧ b.forks = true := by
  obtain ⟨p, p', he, he', hne⟩ := h
  have hp := mem_transitions_fill_all.2 (Relation.mem_insertAll.1 he)
  obtain ⟨targets, hcell, _⟩ := mem_successors_iff.1 (mem_transitions_iff.1 hp)
  have hb : ⟨q, a, targets⟩ ∈ branches ((layered .all).fill l) := mem_branches.2 hcell
  exact ⟨_, hb, rfl, rfl, (forks_iff hb).2 ⟨p, p', he, he', hne⟩⟩

/-- **The first branch that forks is the least ambiguity.** -/
theorem leastAmbiguity_of_find?
    (h : (branches ((layered .all).fill l)).find? Branch.forks = some b) :
    (Relation.insertAll l).LeastAmbiguity b.source b.symbol b.targets.toList where
  ambiguous := (forks_iff (List.mem_of_find?_eq_some h)).1 (List.find?_some h)
  least q' a' h' := by
    -- the branch of the other ambiguity forks as well, so it does not come before the first one
    obtain ⟨c, hc, rfl, rfl, hcforks⟩ := exists_forks h'
    obtain ⟨_, before, after, hsplit, hbefore⟩ := List.find?_eq_some_iff_append.1 h
    have hascending := ascending_branches ((layered .all).fill l)
    rw [hsplit] at hc hascending
    rcases List.mem_append.1 hc with hc | hc
    · exact absurd hcforks (by simpa using hbefore c hc)
    · rcases List.mem_cons.1 hc with rfl | hc
      · exact .inr ⟨rfl, le_rfl⟩
      · have hlt := (List.pairwise_cons.1 (List.pairwise_append.1 hascending).2.1).1 c hc
        exact (Branch.cmp_eq_lt_iff.1 hlt).imp_right fun ⟨hsource, hsymbol⟩ => ⟨hsource, hsymbol.le⟩
  mem_targets p := by
    rw [FinSet.mem_toList, targets_eq (List.mem_of_find?_eq_some h), Relation.mem_targets]
  ascending := b.targets.ascending.imp compare_lt_iff_lt.1

/-- No branch forks exactly if there is no ambiguity. -/
theorem find?_forks_eq_none_iff : (branches ((layered .all).fill l)).find? Branch.forks = none ↔
    ∀ q a, ¬(Relation.insertAll l).Ambiguous q a := by
  rw [List.find?_eq_none]
  constructor
  · intro h q a hambiguous
    obtain ⟨b, hb, _, _, hforks⟩ := exists_forks hambiguous
    exact h b hb hforks
  · intro h b hb hforks
    exact h _ _ ((forks_iff hb).1 hforks)

theorem not_ambiguous_iff_singleTargets :
    (∀ q a, ¬(Relation.insertAll l).Ambiguous q a) ↔ SingleTargets l := by
  simp only [Relation.not_ambiguous_iff, Relation.isFunctional_iff, Relation.mem_insertAll,
    SingleTargets]

/-- If no two edges compete, none has to make room. -/
theorem SingleTargets.kept_iff (h : SingleTargets l) : Kept true l e ↔ e ∈ l := by
  refine ⟨Kept.mem, Kept.of_mem ?_⟩
  intro ⟨q, a, p⟩ hp ⟨q', a', p'⟩ hp' hq ha
  obtain rfl : q = q' := hq
  obtain rfl : a = a' := ha
  rw [h q a p p' hp hp']

/-- What is left of insertions that make room has single targets. -/
theorem singleTargets_of_kept {l' : List Edge} (h : ∀ e, e ∈ l' → Kept true l e) :
    SingleTargets l' := fun _ _ _ _ hp hp' =>
  congrArg Edge.target ((h _ hp).unique (h _ hp') rfl rfl)

/-- Maps of single targets can be filled with the edges that would be left, in any order. -/
theorem fill_eq_of_kept {l' : List Edge} (h : ∀ e, e ∈ l' ↔ Kept true l e) :
    (layered .last).fill l' = (layered .last).fill l := by
  have hsingle : SingleTargets l' := singleTargets_of_kept fun e => (h e).1
  refine (lawful_layered .last).ext _ _ fun e => ?_
  show e ∈ transitions .last ((layered .last).fill l') ↔ e ∈ transitions .last _
  rw [mem_transitions_fill_last, mem_transitions_fill_last, hsingle.kept_iff, h]

/-- Without competing edges a map is narrowed, and keeps all of them. -/
theorem narrow_fill (h : SingleTargets l) :
    narrow ((layered .all).fill l) = .ok ((layered .last).fill l) := by
  rw [narrow_eq, find?_forks_eq_none_iff.2 (not_ambiguous_iff_singleTargets.2 h)]
  exact congrArg _ (fill_eq_of_kept fun e => by rw [mem_transitions_fill_all, h.kept_iff])

/-- Otherwise it fails as its least ambiguity. -/
theorem narrow_fill_eq_error_iff : narrow ((layered .all).fill l) = .error x ↔
    ∃ q a targets, (Relation.insertAll l).LeastAmbiguity q a targets ∧
      x = .ambiguous q a targets := by
  rw [narrow_eq]
  cases hfind : (branches ((layered .all).fill l)).find? Branch.forks with
  | none =>
    constructor
    · intro h
      cases h
    · intro ⟨q, a, _, h, _⟩
      exact absurd h.ambiguous (find?_forks_eq_none_iff.1 hfind q a)
  | some b =>
    have hleast := leastAmbiguity_of_find? hfind
    constructor
    · intro h
      exact ⟨_, _, _, hleast, (Except.error.inj h).symm⟩
    · intro ⟨q, a, targets, h, hx⟩
      obtain ⟨rfl, rfl, rfl⟩ := hleast.unique h
      rw [hx]

/-- What a map is narrowed to is the map of single targets that was filled alike. -/
theorem of_narrow_fill (h : narrow ((layered .all).fill l) = .ok d) :
    SingleTargets l ∧ d = (layered .last).fill l := by
  have hsingle : SingleTargets l := by
    rw [← not_ambiguous_iff_singleTargets, ← find?_forks_eq_none_iff]
    rw [narrow_eq] at h
    split at h
    · cases h
    · assumption
  exact ⟨hsingle, Except.ok.inj (h.symm.trans (narrow_fill hsingle))⟩

/-- The other way round, only what is held counts, not in which order it is met. -/
theorem widenAlong_eq {order : List Edge} (h : ∀ e, e ∈ order ↔ e ∈ l) :
    widenAlong order = (layered .all).fill l :=
  (lawful_layered .all).ext _ _ fun e => by
    show e ∈ transitions .all ((layered .all).fill order) ↔ e ∈ transitions .all _
    rw [mem_transitions_fill_all, mem_transitions_fill_all, h]

end Filled

/-- What the conversions of maps that were filled with the edges of a list come to. -/
structure ConvertsExactly (l : List Edge) : Prop where
  /-- A map is narrowed exactly if every state has at most one target on every symbol. -/
  narrow_ok_iff : (∃ d, narrow ((layered .all).fill l) = .ok d) ↔ SingleTargets l
  /-- It then is the map of single targets that was filled alike, and can be widened again. -/
  widen_narrow : ∀ d, narrow ((layered .all).fill l) = .ok d →
    d = (layered .last).fill l ∧ widen d = (layered .all).fill l
  /-- Otherwise the least state and symbol with several targets are reported, with all of these. -/
  narrow_error_iff : ∀ x, narrow ((layered .all).fill l) = .error x ↔
    ∃ q a targets, (Relation.insertAll l).LeastAmbiguity q a targets ∧ x = .ambiguous q a targets
  /-- The set of the edges is refused alike, -/
  asFunctional_error_iff : ∀ x, (Relation.insertAll l).asFunctional = .error x ↔
    narrow ((layered .all).fill l) = .error x
  /-- and passes as functional with the same edges. -/
  mem_asFunctional_iff : ∀ r d, (Relation.insertAll l).asFunctional = .ok r →
    narrow ((layered .all).fill l) = .ok d → ∀ e, e ∈ r.edges ↔ e ∈ transitions .last d
  /-- In which order the branches are met makes no difference. -/
  narrow_order : ∀ order : List Branch, order.Perm (branches ((layered .all).fill l)) →
    narrowAlong order = narrow ((layered .all).fill l)
  /-- A map of single targets that was widened can be narrowed again. -/
  narrow_widen : narrow (widen ((layered .last).fill l)) = .ok ((layered .last).fill l)
  /-- In which order its transitions are met makes no difference. -/
  widen_order : ∀ order : List Edge, order.Perm (transitions .last ((layered .last).fill l)) →
    widenAlong order = widen ((layered .last).fill l)

/-- **Each conversion of maps in two layers undoes the other, as far as it can**, and fails as the
conversion of the set of their edges does. -/
theorem converts_exactly (l : List Edge) : ConvertsExactly l where
  narrow_ok_iff := ⟨fun ⟨_, hd⟩ => (of_narrow_fill hd).1, fun h => ⟨_, narrow_fill h⟩⟩
  widen_narrow d hd := by
    obtain ⟨hsingle, rfl⟩ := of_narrow_fill hd
    exact ⟨rfl, widenAlong_eq fun e => mem_transitions_fill_last.trans hsingle.kept_iff⟩
  narrow_error_iff _ := narrow_fill_eq_error_iff
  asFunctional_error_iff _ := Relation.asFunctional_eq_error_iff.trans narrow_fill_eq_error_iff.symm
  mem_asFunctional_iff r d hr hd e := by
    obtain ⟨hsingle, rfl⟩ := of_narrow_fill hd
    rw [Relation.asFunctional_eq_ok_iff.1 hr, Relation.mem_insertAll, mem_transitions_fill_last,
      hsingle.kept_iff]
  narrow_order order horder := by rw [narrowAlong_eq horder, narrow, narrowAlong_eq (.refl _)]
  narrow_widen := by
    have hkept := fun e => mem_transitions_fill_last (l := l) (e := e)
    rw [widen, widenAlong, narrow_fill (singleTargets_of_kept fun e => (hkept e).1),
      fill_eq_of_kept hkept]
  widen_order order horder := widenAlong_eq fun e => horder.mem_iff

end TransitionMap

end Automata
