import Automata.FinSet
import Automata.State

/-!
# Transition relations

A transition relation is a finite set of edges, each leading from a state along a symbol to a
state.  It is *functional* if no state has two edges along one symbol.

## What is here

* `Edge`, ordered by source, then symbol, then target, and `Relation`, the finite sets of them.
* `Relation.targets r q a` — the states that `r` allows after `q` on `a`.
* `FunctionalRelation` — a relation together with a proof that it is functional; inserting an edge
  replaces the one it competes with.
* `Relation.ambiguity?` — the least edge whose source has two targets on its symbol, and
  `Relation.ambiguity?_eq_none_iff` — **there is none exactly if the relation is functional.**
-/

set_option autoImplicit false

namespace Automata

open Std

/-- A move from one state to another along a symbol. -/
structure Edge where
  /-- The state that is left. -/
  source : State
  /-- The symbol that is read. -/
  symbol : Char
  /-- The state that is entered. -/
  target : State
deriving DecidableEq, Repr

namespace Edge

instance : Ord Edge :=
  ⟨compareLex (compareOn source) (compareLex (compareOn symbol) (compareOn target))⟩

instance : TransOrd Edge :=
  inferInstanceAs (TransCmp (compareLex (compareOn source)
    (compareLex (compareOn symbol) (compareOn target))))

instance : LawfulEqOrd Edge where
  eq_of_compare {e f} h := by
    have h : compareLex (compareOn source) (compareLex (compareOn symbol) (compareOn target)) e f
        = .eq := h
    simp only [compareLex_eq_eq, compareOn] at h
    cases e
    cases f
    simp only [mk.injEq]
    exact ⟨LawfulEqOrd.eq_of_compare h.1, LawfulEqOrd.eq_of_compare h.2.1,
      LawfulEqOrd.eq_of_compare h.2.2⟩

/-- Whether the edge leaves `q` along `a`. -/
def leaves (q : State) (a : Char) (e : Edge) : Bool := e.source = q && e.symbol = a

theorem leaves_iff {q : State} {a : Char} {e : Edge} :
    e.leaves q a = true ↔ e.source = q ∧ e.symbol = a := by
  simp [leaves]

/-- The edge with both of its states replaced. -/
def map (f : State → State) (e : Edge) : Edge := ⟨f e.source, e.symbol, f e.target⟩

end Edge

/-- A set of allowed moves. -/
abbrev Relation := FinSet Edge

namespace Relation

/-- The states that can be entered from `q` by reading `a`. -/
def targets (r : Relation) (q : State) (a : Char) : FinSet State :=
  (r.filter (Edge.leaves q a)).map Edge.target

theorem mem_targets {r : Relation} {q p : State} {a : Char} :
    p ∈ r.targets q a ↔ (⟨q, a, p⟩ : Edge) ∈ r := by
  simp only [targets, FinSet.mem_map, FinSet.mem_filter, Edge.leaves_iff]
  constructor
  · rintro ⟨⟨_, _, _⟩, ⟨he, rfl, rfl⟩, rfl⟩
    exact he
  · intro h
    exact ⟨_, ⟨h, rfl, rfl⟩, rfl⟩

/-- The relation with every state replaced by its image. -/
def mapStates (f : State → State) (r : Relation) : Relation := FinSet.map (Edge.map f) r

/-- No state has two targets on one symbol. -/
def IsFunctional (r : Relation) : Prop :=
  ∀ e, e ∈ r → ∀ e', e' ∈ r → e.source = e'.source → e.symbol = e'.symbol → e = e'

/-- The least edge whose source has a further target on its symbol, if there is one. -/
def ambiguity? (r : Relation) : Option Edge :=
  r.toList.find? fun e => decide (1 < (r.targets e.source e.symbol).size)

/-- A set with two different members has more than one. -/
theorem one_lt_size {s : FinSet State} {p q : State} (hp : p ∈ s) (hq : q ∈ s) (h : p ≠ q) :
    1 < s.size := by
  obtain ⟨l, hl⟩ := s
  match l with
  | [] => exact absurd hp List.not_mem_nil
  | [a] => exact absurd ((List.mem_singleton.1 hp).trans (List.mem_singleton.1 hq).symm) h
  | _ :: _ :: l => simp [FinSet.size]

/-- **A relation has no ambiguity exactly if it is functional.** -/
theorem ambiguity?_eq_none_iff {r : Relation} : r.ambiguity? = none ↔ r.IsFunctional := by
  rw [ambiguity?, List.find?_eq_none]
  constructor
  · intro h e he e' he' hs ha
    by_cases ht : e.target = e'.target
    · cases e
      cases e'
      simp_all
    · refine absurd (decide_eq_true ?_) (h e he)
      refine one_lt_size (mem_targets.2 he) (q := e'.target) (mem_targets.2 ?_) ht
      rw [hs, ha]
      exact he'
  · intro h e he hlt
    have hlt := of_decide_eq_true hlt
    have hnd := (r.targets e.source e.symbol).nodup
    have hmem : ∀ p, p ∈ r.targets e.source e.symbol → p = e.target := fun p hp =>
      (congrArg Edge.target (h _ (mem_targets.1 hp) e he rfl rfl) : p = e.target)
    generalize r.targets e.source e.symbol = s at hlt hnd hmem
    obtain ⟨l, _⟩ := s
    match l with
    | [] => simp [FinSet.size] at hlt
    | [_] => simp [FinSet.size] at hlt
    | a :: b :: l =>
      have ha := hmem a List.mem_cons_self
      have hb := hmem b (List.mem_cons_of_mem a List.mem_cons_self)
      simp [ha, hb] at hnd

end Relation

/-- A relation that allows at most one target for each state and symbol. -/
structure FunctionalRelation where
  /-- The allowed moves. -/
  edges : Relation
  /-- No state has two targets on one symbol. -/
  functional : edges.IsFunctional

namespace FunctionalRelation

instance : DecidableEq FunctionalRelation := fun r s =>
  if h : r.edges = s.edges then
    isTrue (by cases r; cases s; simp_all)
  else
    isFalse (fun e => h (congrArg edges e))

/-- The relation without moves. -/
def empty : FunctionalRelation := ⟨∅, fun _ he => absurd he FinSet.not_mem_empty⟩

instance : EmptyCollection FunctionalRelation := ⟨empty⟩

/-- The only target of `q` on `a`, if there is one. -/
def target? (r : FunctionalRelation) (q : State) (a : Char) : Option State :=
  (r.edges.targets q a).min?

theorem target?_eq_some_iff {r : FunctionalRelation} {q p : State} {a : Char} :
    r.target? q a = some p ↔ (⟨q, a, p⟩ : Edge) ∈ r.edges := by
  rw [← Relation.mem_targets]
  have huniq : ∀ p p', p ∈ r.edges.targets q a → p' ∈ r.edges.targets q a → p = p' :=
    fun p p' hp hp' => congrArg Edge.target
      (r.functional _ (Relation.mem_targets.1 hp) _ (Relation.mem_targets.1 hp') rfl rfl)
  unfold target?
  generalize r.edges.targets q a = s at huniq
  obtain ⟨l, _⟩ := s
  match l with
  | [] => exact ⟨(fun h => nomatch h), fun h => absurd h List.not_mem_nil⟩
  | b :: l =>
    constructor
    · rintro ⟨⟩
      exact List.mem_cons_self
    · intro h
      exact congrArg some (huniq b p List.mem_cons_self h)

/-- The relation with the edge `e`, which replaces any other edge along its symbol. -/
def insert (e : Edge) (r : FunctionalRelation) : FunctionalRelation where
  edges := (r.edges.filter fun f => !f.leaves e.source e.symbol).insert e
  functional := by
    intro f hf f' hf' hs ha
    simp only [FinSet.mem_insert, FinSet.mem_filter, Bool.not_eq_true', Edge.leaves,
      Bool.and_eq_false_iff, decide_eq_false_iff_not] at hf hf'
    rcases hf with rfl | ⟨hf, hne⟩ <;> rcases hf' with rfl | ⟨hf', hne'⟩
    · rfl
    · simp_all
    · simp_all
    · exact r.functional f hf f' hf' hs ha

/-- **The target after an insertion is the inserted one where it applies, and else the old one.** -/
theorem target?_insert {e : Edge} {r : FunctionalRelation} {q : State} {a : Char} :
    (r.insert e).target? q a
      = if e.source = q ∧ e.symbol = a then some e.target else r.target? q a := by
  apply Option.ext
  intro p
  rw [target?_eq_some_iff]
  obtain ⟨s, b, t⟩ := e
  simp only [insert, FinSet.mem_insert, FinSet.mem_filter, Edge.mk.injEq, Edge.leaves,
    Bool.not_eq_true', Bool.and_eq_false_iff, decide_eq_false_iff_not]
  by_cases h : s = q ∧ b = a
  · obtain ⟨rfl, rfl⟩ := h
    simp [eq_comm]
  · rw [if_neg h, target?_eq_some_iff]
    constructor
    · rintro (⟨rfl, rfl, _⟩ | ⟨h', _⟩)
      · exact absurd ⟨rfl, rfl⟩ h
      · exact h'
    · intro h'
      refine .inr ⟨h', ?_⟩
      by_cases hq : q = s
      · exact .inr fun ha => h ⟨hq.symm, ha.symm⟩
      · exact .inl hq

/-- The functional relation of a list of edges, in which a later edge replaces an earlier one. -/
def ofList (l : List Edge) : FunctionalRelation := l.foldl (fun r e => r.insert e) ∅

/-- The relation with every state replaced by its image. -/
def mapStates (f : State → State) (r : FunctionalRelation) : FunctionalRelation :=
  ofList (r.edges.toList.map (Edge.map f))

end FunctionalRelation

end Automata
