import Automata.Determinism
import Automata.Proofs.FirstFailures
import Automata.Proofs.Relations

/-!
# What keeps a relation from being functional

A relation is turned into a functional one by looking for a state and a symbol with several targets.
As the edges are a set, it does not matter in which order they came into it, and the state and
symbol that are reported are the least ones.

## What is here

* `Relation.Ambiguous` — a state has several targets on a symbol; a relation is functional exactly
  if there is no such state and symbol (`Relation.isFunctional_iff`, `Relation.not_ambiguous_iff`).
* `Relation.LeastAmbiguity` — the least state and symbol with several targets, with the list of
  these targets; there is only one (`Relation.LeastAmbiguity.unique`).
* `Relation.asFunctional_eq_error_iff` — **a relation fails to be functional as its least
  ambiguity.**
* `NFA.asDFA_eq_error_iff` — an automaton fails to be deterministic as its relation does.
* `Relation.insertAll` — a relation that is filled edge by edge, and `Relation.asFunctional_exact` —
  **functional relations are the relations that pass as functional, and nothing but the least
  ambiguity keeps the others from it.**
-/

set_option autoImplicit false

namespace Automata

namespace Relation

variable {r : Relation} {q q' p : State} {a a' : Char} {targets targets' : List State}

/-- The state has several targets on the symbol. -/
def Ambiguous (r : Relation) (q : State) (a : Char) : Prop :=
  ∃ p p', (⟨q, a, p⟩ : Edge) ∈ r ∧ (⟨q, a, p'⟩ : Edge) ∈ r ∧ p ≠ p'

/-- The least state that is ambiguous on some symbol, the least symbol on which it is, and its
targets, which ascend. -/
structure LeastAmbiguity (r : Relation) (q : State) (a : Char) (targets : List State) : Prop where
  /-- There are several targets. -/
  ambiguous : r.Ambiguous q a
  /-- All other states and symbols with several targets come later. -/
  least : ∀ q' a', r.Ambiguous q' a' → q < q' ∨ q = q' ∧ a ≤ a'
  /-- All targets are listed, and nothing else is. -/
  mem_targets : ∀ p, p ∈ targets ↔ (⟨q, a, p⟩ : Edge) ∈ r
  /-- The targets are in ascending order. -/
  ascending : targets.Pairwise (· < ·)

/-! ## Ambiguous states and symbols -/

/-- A relation is functional exactly if every state has at most one target on every symbol. -/
theorem isFunctional_iff : r.IsFunctional ↔
    ∀ q a p p', (⟨q, a, p⟩ : Edge) ∈ r → (⟨q, a, p'⟩ : Edge) ∈ r → p = p' := by
  constructor
  · intro h q a p p' he he'
    exact congrArg Edge.target (h _ he _ he' rfl rfl)
  · rintro h ⟨q, a, p⟩ he ⟨_, _, p'⟩ he' ⟨⟩ ⟨⟩
    rw [h q a p p' he he']

/-- A relation is functional exactly if no state is ambiguous. -/
theorem not_ambiguous_iff : (∀ q a, ¬r.Ambiguous q a) ↔ r.IsFunctional := by
  simp only [isFunctional_iff, Ambiguous, not_exists, not_and, not_not]

theorem one_lt_size_targets_iff : 1 < (r.targets q a).size ↔ r.Ambiguous q a := by
  constructor
  · intro hlt
    obtain ⟨l, hl⟩ : ∃ l, (r.targets q a).toList = l := ⟨_, rfl⟩
    have hnodup := (r.targets q a).nodup
    have hmem : ∀ p, p ∈ l → (⟨q, a, p⟩ : Edge) ∈ r := fun p hp =>
      mem_targets.1 (FinSet.mem_def.2 (hl ▸ hp))
    rw [FinSet.size, hl] at hlt
    rw [hl] at hnodup
    rcases l with _ | ⟨p, _ | ⟨p', rest⟩⟩
    · cases hlt
    · exact absurd hlt (Nat.lt_irrefl 1)
    · refine ⟨p, p', hmem p List.mem_cons_self,
        hmem p' (List.mem_cons_of_mem p List.mem_cons_self), fun hp => ?_⟩
      exact (List.nodup_cons.1 hnodup).1 (hp ▸ List.mem_cons_self)
  · rintro ⟨p, p', he, he', hne⟩
    exact one_lt_size (mem_targets.2 he) (mem_targets.2 he') hne

/-- The edge that is found is the first one whose state is ambiguous on its symbol. -/
theorem ambiguity?_eq_some_iff {e : Edge} : r.ambiguity? = some e ↔
    FinSet.IsFirst r (fun e => r.Ambiguous e.source e.symbol) e := by
  rw [ambiguity?, FinSet.find?_toList_eq_some_iff]
  exact FinSet.isFirst_congr fun f _ => decide_eq_true_iff.trans one_lt_size_targets_iff

/-- Of the first edge whose state is ambiguous on its symbol, state and symbol are the least. -/
theorem leastAmbiguity_of_isFirst {e : Edge}
    (h : FinSet.IsFirst r (fun e => r.Ambiguous e.source e.symbol) e) :
    r.LeastAmbiguity e.source e.symbol (r.targets e.source e.symbol).toList where
  ambiguous := h.holds
  least q' a' h' := by
    have ⟨p, _, he, _, _⟩ := h'
    rcases h.least _ he h' with rfl | hlt
    · exact .inr ⟨rfl, le_rfl⟩
    · rcases Edge.compare_eq_lt_iff.1 hlt with hlt | ⟨heq, hlt | ⟨heq', _⟩⟩
      · exact .inl hlt
      · exact .inr ⟨heq, hlt.le⟩
      · exact .inr ⟨heq, heq'.le⟩
  mem_targets _ := mem_targets
  ascending := (r.targets e.source e.symbol).ascending.imp compare_lt_iff_lt.1

/-- There is only one least ambiguity. -/
theorem LeastAmbiguity.unique (h : r.LeastAmbiguity q a targets)
    (h' : r.LeastAmbiguity q' a' targets') : q = q' ∧ a = a' ∧ targets = targets' := by
  have hpair : q = q' ∧ a = a' := by
    rcases h.least q' a' h'.ambiguous with hlt | ⟨rfl, hle⟩
    · rcases h'.least q a h.ambiguous with hgt | ⟨rfl, _⟩
      · exact absurd hlt hgt.asymm
      · exact absurd hlt (lt_irrefl _)
    · rcases h'.least q a h.ambiguous with hgt | ⟨_, hge⟩
      · exact absurd hgt (lt_irrefl _)
      · exact ⟨rfl, le_antisymm hle hge⟩
  obtain ⟨rfl, rfl⟩ := hpair
  refine ⟨rfl, rfl, FinSet.eq_of_ascending (h.ascending.imp compare_lt_iff_lt.2)
    (h'.ascending.imp compare_lt_iff_lt.2) fun p => ?_⟩
  rw [h.mem_targets, h'.mem_targets]

/-! ## Asking for a functional relation -/

/-- **A relation fails to be functional as its least ambiguity**, and as nothing else. -/
theorem asFunctional_eq_error_iff {x : Error} : r.asFunctional = .error x ↔
    ∃ q a targets, r.LeastAmbiguity q a targets ∧ x = .ambiguous q a targets := by
  have hfails : ∀ {x}, r.asFunctional = .error x →
      ∃ q a targets, r.LeastAmbiguity q a targets ∧ x = .ambiguous q a targets := by
    intro x h
    unfold asFunctional at h
    split at h
    · cases h
    · rename_i e he
      cases h
      exact ⟨_, _, _, leastAmbiguity_of_isFirst (ambiguity?_eq_some_iff.1 he), rfl⟩
  refine ⟨hfails, ?_⟩
  rintro ⟨q, a, targets, hleast, rfl⟩
  cases h : r.asFunctional with
  | ok d =>
    obtain rfl := asFunctional_eq_ok_iff.1 h
    exact absurd hleast.ambiguous (not_ambiguous_iff.2 d.functional q a)
  | error x =>
    obtain ⟨q', a', targets', hleast', rfl⟩ := hfails h
    obtain ⟨rfl, rfl, rfl⟩ := hleast.unique hleast'
    rfl

theorem exists_asFunctional_eq_ok_iff : (∃ d, r.asFunctional = .ok d) ↔ r.IsFunctional := by
  simp only [asFunctional_eq_ok_iff]
  constructor
  · rintro ⟨d, rfl⟩
    exact d.functional
  · intro h
    exact ⟨⟨r, h⟩, rfl⟩

/-! ## Relations that are filled edge by edge -/

/-- The relation after the edges were inserted, one after the other. -/
def insertAll (l : List Edge) : Relation := l.foldl (fun r e => FinSet.insert e r) ∅

@[simp] theorem mem_insertAll {l : List Edge} {e : Edge} : e ∈ insertAll l ↔ e ∈ l := by
  have hfold : ∀ r : Relation,
      e ∈ l.foldl (fun r e => FinSet.insert e r) r ↔ e ∈ r ∨ e ∈ l := by
    induction l with
    | nil => exact fun r => (or_iff_left List.not_mem_nil).symm
    | cons f l ih =>
      intro r
      rw [List.foldl_cons, ih, FinSet.mem_insert, List.mem_cons, or_assoc, or_left_comm]
  rw [insertAll, hfold]
  exact or_iff_right FinSet.not_mem_empty

/-- Only the edges that were inserted count, not in which order nor how often. -/
theorem insertAll_congr {l l' : List Edge} (h : ∀ e, e ∈ l ↔ e ∈ l') :
    insertAll l = insertAll l' :=
  FinSet.ext fun e => by rw [mem_insertAll, mem_insertAll, h]

/-- **Asking for a functional relation undoes taking one for a relation, as far as it can.**  It
succeeds on the relations in which every state has at most one target on every symbol, and keeps
their edges.  All others fail as the least state and symbol with several targets.  In which order
the edges were inserted makes no difference. -/
theorem asFunctional_exact :
    (∀ l : List Edge,
      ((∃ d, (insertAll l).asFunctional = .ok d) ↔
        ∀ q a p p', (⟨q, a, p⟩ : Edge) ∈ l → (⟨q, a, p'⟩ : Edge) ∈ l → p = p') ∧
      (∀ d, (insertAll l).asFunctional = .ok d → d.edges = insertAll l) ∧
      (∀ x, (insertAll l).asFunctional = .error x ↔
        ∃ q a targets, (insertAll l).LeastAmbiguity q a targets ∧ x = .ambiguous q a targets) ∧
      ∀ l', l'.Perm l → (insertAll l').asFunctional = (insertAll l).asFunctional) ∧
    ∀ d : FunctionalRelation, d.edges.asFunctional = .ok d := by
  refine ⟨fun l => ⟨?_, fun d => asFunctional_eq_ok_iff.1, fun x => asFunctional_eq_error_iff,
    fun l' hperm => ?_⟩, fun d => asFunctional_eq_ok_iff.2 rfl⟩
  · simp only [exists_asFunctional_eq_ok_iff, isFunctional_iff, mem_insertAll]
  · rw [insertAll_congr fun _ => hperm.mem_iff]

/-- Two states are ambiguous, and the edges of the greater one come first. -/
def conflicting : List Edge :=
  [⟨"q", 'a', "q"⟩, ⟨"q", 'a', "p"⟩, ⟨"p", 'b', "q"⟩, ⟨"p", 'c', "p"⟩, ⟨"p", 'b', "p"⟩]

theorem conflicting_asFunctional :
    ((insertAll conflicting).asFunctional = .error (.ambiguous "p" 'b' ["p", "q"]) ∧
      (insertAll conflicting).LeastAmbiguity "p" 'b' ["p", "q"]) ∧
    (conflicting.reverse.Perm conflicting ∧
      (insertAll conflicting.reverse).asFunctional = (insertAll conflicting).asFunctional) ∧
    ∃ d, (insertAll [⟨"q", 'a', "p"⟩, ⟨"p", 'a', "p"⟩]).asFunctional = .ok d ∧
      d.edges = insertAll [⟨"q", 'a', "p"⟩, ⟨"p", 'a', "p"⟩] := by
  have hfails : (insertAll conflicting).asFunctional = .error (.ambiguous "p" 'b' ["p", "q"]) := by
    rfl
  have hperm : conflicting.reverse.Perm conflicting := List.reverse_perm _
  refine ⟨⟨hfails, ?_⟩, ⟨hperm, (asFunctional_exact.1 conflicting).2.2.2 _ hperm⟩, ?_⟩
  · obtain ⟨q, a, targets, hleast, ⟨⟩⟩ := ((asFunctional_exact.1 conflicting).2.2.1 _).1 hfails
    exact hleast
  · obtain ⟨d, hd⟩ := (asFunctional_exact.1 [⟨"q", 'a', "p"⟩, ⟨"p", 'a', "p"⟩]).1.2 (by grind)
    exact ⟨d, hd, (asFunctional_exact.1 _).2.1 d hd⟩

end Relation

/-- An automaton fails to be deterministic as the least ambiguity of its edges. -/
theorem NFA.asDFA_eq_error_iff {A : NFA} {x : Error} : A.asDFA = .error x ↔
    ∃ q a targets, A.edges.LeastAmbiguity q a targets ∧ x = .ambiguous q a targets := by
  rw [asDFA, ← Relation.asFunctional_eq_error_iff]
  cases Relation.asFunctional A.edges with
  | error e => simp only [Except.map, Except.error.injEq]
  | ok moves =>
    constructor
    · rintro ⟨⟩
    · rintro ⟨⟩

end Automata
