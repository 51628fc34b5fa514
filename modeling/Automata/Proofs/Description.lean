import Automata.Description.Reader
import Mathlib.Data.List.Forall2

/-!
# Descriptions and the automata made from them

A statement that mentions a state or a symbol makes it known.  So whatever is described fits
together, in which order it was said notwithstanding, and only the start can be missing.

## What is here

* `exists_left_of_forall₂`, `exists_right_of_forall₂`, `exists_forall₂` — lists that are related entry
  by entry.
* `bind_eq_ok_iff`, `mapM_eq_ok_iff`, `mapM_eq_ok_map`, `exists_mapM_eq_ok` — how computations that
  may fail succeed.
* `Description.Closed` — everything that is mentioned is known, and `Description.Closed.addAll` —
  statements keep that.
* `Description.holds_addAll_iff`, `Description.mem_edges_addAll`, `Description.mem_finals_addAll`,
  `Description.mem_states_addAll`, `Description.mem_alphabet_addAll`, `Description.start_addAll` —
  what is known comes from the statements, and `Description.addAll_congr` — in whichever order.
* `Description.toNFA_eq_ok_iff` — a description is an automaton as soon as it has a start, and
  `Description.toRecognizer_cases` — of which kind, if none is asked for.
* `NFA.asDFA_eq_ok_iff`, `Moore.ofDFA_eq_ok_iff` — asking for determinism or for outputs does not
  change the automaton, and `Description.wellFormed_toNFA`, `Description.wellFormed_toDFA` — **what
  is made from a description is well-formed.**
-/

set_option autoImplicit false

namespace Automata

/-! ## Lists that are related entry by entry -/

section Forall₂

variable {α β : Type} {R : α → β → Prop} {as : List α} {bs : List β}

/-- Of two lists that are related entry by entry, the first has an entry for each of the second. -/
theorem exists_left_of_forall₂ (h : List.Forall₂ R as bs) {b : β} (hb : b ∈ bs) :
    ∃ a ∈ as, R a b := by
  induction h with
  | nil => exact absurd hb List.not_mem_nil
  | cons hab _ ih =>
    rcases List.mem_cons.1 hb with rfl | hb
    · exact ⟨_, List.mem_cons_self, hab⟩
    · obtain ⟨a, ha, hr⟩ := ih hb
      exact ⟨a, List.mem_cons_of_mem _ ha, hr⟩

theorem exists_right_of_forall₂ (h : List.Forall₂ R as bs) {a : α} (ha : a ∈ as) :
    ∃ b ∈ bs, R a b := exists_left_of_forall₂ h.flip ha

/-- A list is related to another one if each of its entries is related to something. -/
theorem exists_forall₂ (h : ∀ a ∈ as, ∃ b, R a b) : ∃ bs, List.Forall₂ R as bs := by
  induction as with
  | nil => exact ⟨[], .nil⟩
  | cons a as ih =>
    obtain ⟨b, hb⟩ := h a List.mem_cons_self
    obtain ⟨bs, hbs⟩ := ih fun a' ha' => h a' (List.mem_cons_of_mem _ ha')
    exact ⟨b :: bs, .cons hb hbs⟩

end Forall₂

/-! ## Computations that may fail -/

section Except

variable {ε α β : Type}

theorem bind_eq_ok_iff {x : Except ε α} {f : α → Except ε β} {b : β} :
    x >>= f = .ok b ↔ ∃ a, x = .ok a ∧ f a = .ok b := by
  cases x with
  | error e => exact ⟨(fun h => nomatch h), fun ⟨_, h, _⟩ => nomatch h⟩
  | ok a =>
    refine ⟨fun h => ⟨a, rfl, h⟩, ?_⟩
    rintro ⟨_, ⟨⟩, h⟩
    exact h

/-- All steps over a list succeed, one result for each entry. -/
theorem mapM_eq_ok_iff {f : α → Except ε β} {l : List α} {bs : List β} :
    l.mapM f = .ok bs ↔ List.Forall₂ (fun a b => f a = .ok b) l bs := by
  induction l generalizing bs with
  | nil =>
    rw [List.mapM_nil, List.forall₂_nil_left_iff]
    exact Except.ok.injEq [] bs ▸ eq_comm
  | cons a l ih =>
    simp only [List.mapM_cons, bind_eq_ok_iff, List.forall₂_cons_left_iff, ih]
    refine ⟨?_, ?_⟩
    · rintro ⟨b, hb, bs, hbs, ⟨⟩⟩
      exact ⟨b, bs, hb, hbs, rfl⟩
    · rintro ⟨b, bs, hb, hbs, rfl⟩
      exact ⟨b, hb, bs, hbs, rfl⟩

/-- What is known of all results over a list is the result over the list. -/
theorem mapM_eq_ok_map {f : α → Except ε β} {g : α → β} {l : List α}
    (h : ∀ a ∈ l, f a = .ok (g a)) : l.mapM f = .ok (l.map g) :=
  mapM_eq_ok_iff.2 (List.forall₂_map_right_iff.2 (List.forall₂_same.2 h))

/-- The results over a list are those of its entries. -/
theorem mem_of_mapM_eq_ok {f : α → Except ε β} {l : List α} {bs : List β} (h : l.mapM f = .ok bs)
    {b : β} : b ∈ bs ↔ ∃ a ∈ l, f a = .ok b := by
  have hall := mapM_eq_ok_iff.1 h
  refine ⟨exists_left_of_forall₂ hall, ?_⟩
  rintro ⟨a, ha, hb⟩
  obtain ⟨b', hb', hab'⟩ := exists_right_of_forall₂ hall ha
  rwa [Except.ok.inj (hb.symm.trans hab')]

theorem exists_of_mapM_eq_ok {f : α → Except ε β} {l : List α} {bs : List β}
    (h : l.mapM f = .ok bs) {a : α} (ha : a ∈ l) : ∃ b ∈ bs, f a = .ok b :=
  exists_right_of_forall₂ (mapM_eq_ok_iff.1 h) ha

/-- A list goes through if each of its entries does. -/
theorem exists_mapM_eq_ok {f : α → Except ε β} {l : List α} (h : ∀ a ∈ l, ∃ b, f a = .ok b) :
    ∃ bs, l.mapM f = .ok bs :=
  (exists_forall₂ h).imp fun _ => mapM_eq_ok_iff.2

end Except

/-- The states that a statement mentions. -/
def Statement.states : Statement → List State
  | start q => [q]
  | final q => [q]
  | state q => [q]
  | edge e => [e.source, e.target]

namespace Description

variable {d : Description}

/-- Everything that is mentioned is known. -/
structure Closed (d : Description) : Prop where
  /-- The start is a state. -/
  start_mem : ∀ q, d.start = some q → q ∈ d.states
  /-- Final states are states. -/
  finals_subset : ∀ q, q ∈ d.finals → q ∈ d.states
  /-- Edges leave states. -/
  source_mem : ∀ e, e ∈ d.edges → e.source ∈ d.states
  /-- Edges enter states. -/
  target_mem : ∀ e, e ∈ d.edges → e.target ∈ d.states
  /-- The symbols of edges are in the alphabet. -/
  symbol_mem : ∀ e, e ∈ d.edges → e.symbol ∈ d.alphabet

theorem Closed.empty : empty.Closed where
  start_mem _ h := nomatch h
  finals_subset _ h := absurd h FinSet.not_mem_empty
  source_mem _ h := absurd h FinSet.not_mem_empty
  target_mem _ h := absurd h FinSet.not_mem_empty
  symbol_mem _ h := absurd h FinSet.not_mem_empty

/-- No state is forgotten. -/
theorem mem_states_add (s : Statement) {p : State} (hp : p ∈ d.states) : p ∈ (d.add s).states := by
  cases s with
  | edge e => exact FinSet.mem_insert.2 (.inr (FinSet.mem_insert.2 (.inr hp)))
  | start q => exact FinSet.mem_insert.2 (.inr hp)
  | final q => exact FinSet.mem_insert.2 (.inr hp)
  | state q => exact FinSet.mem_insert.2 (.inr hp)

/-- One more statement makes known what it mentions and forgets nothing. -/
theorem Closed.add (h : d.Closed) (s : Statement) : (d.add s).Closed := by
  have hstart := fun p hp => mem_states_add s (h.start_mem p hp)
  have hfinals := fun p hp => mem_states_add s (h.finals_subset p hp)
  have hsource := fun e he => mem_states_add s (h.source_mem e he)
  have htarget := fun e he => mem_states_add s (h.target_mem e he)
  cases s with
  | start q =>
    refine ⟨?_, hfinals, hsource, htarget, h.symbol_mem⟩
    rintro p ⟨⟩
    exact FinSet.mem_insert.2 (.inl rfl)
  | final q =>
    refine ⟨hstart, fun p hp => ?_, hsource, htarget, h.symbol_mem⟩
    exact FinSet.mem_insert.2 ((FinSet.mem_insert.1 hp).imp_right (h.finals_subset p))
  | state q => exact ⟨hstart, hfinals, hsource, htarget, h.symbol_mem⟩
  | edge e =>
    refine ⟨hstart, hfinals, fun f hf => ?_, fun f hf => ?_, fun f hf => ?_⟩
    · rcases FinSet.mem_insert.1 hf with rfl | hf
      · exact FinSet.mem_insert.2 (.inr (FinSet.mem_insert.2 (.inl rfl)))
      · exact hsource f hf
    · rcases FinSet.mem_insert.1 hf with rfl | hf
      · exact FinSet.mem_insert.2 (.inl rfl)
      · exact htarget f hf
    · rcases FinSet.mem_insert.1 hf with rfl | hf
      · exact FinSet.mem_insert.2 (.inl rfl)
      · exact FinSet.mem_insert.2 (.inr (h.symbol_mem f hf))

theorem Closed.addAll (h : d.Closed) (statements : List Statement) :
    (d.addAll statements).Closed := by
  induction statements generalizing d with
  | nil => exact h
  | cons s statements ih => exact ih (h.add s)

/-! ## What a description holds -/

/-- What a statement makes true stays true, so it is true in the end if some statement made it
true. -/
theorem holds_addAll_iff (holds : Description → Prop) (said : Statement → Prop)
    (hadd : ∀ d s, holds (d.add s) ↔ holds d ∨ said s) {statements : List Statement} :
    holds (d.addAll statements) ↔ holds d ∨ ∃ s ∈ statements, said s := by
  induction statements generalizing d with
  | nil => simp [addAll]
  | cons s statements ih => exact ih.trans (by rw [hadd, List.exists_mem_cons_iff, or_assoc])

/-- Edges are there because they were said to be there. -/
theorem mem_edges_addAll {statements : List Statement} {e : Edge} :
    e ∈ (d.addAll statements).edges ↔ e ∈ d.edges ∨ .edge e ∈ statements := by
  have hadd : ∀ (d : Description) s, e ∈ (d.add s).edges ↔ e ∈ d.edges ∨ .edge e = s := by
    intro d s
    cases s with
    | edge f => rw [Statement.edge.injEq, or_comm]; exact FinSet.mem_insert
    | start q => exact (or_iff_left Statement.noConfusion).symm
    | final q => exact (or_iff_left Statement.noConfusion).symm
    | state q => exact (or_iff_left Statement.noConfusion).symm
  refine (holds_addAll_iff (fun d => e ∈ d.edges) (.edge e = ·) hadd).trans ?_
  rw [exists_eq_right']

/-- Final states are there because they were said to be final. -/
theorem mem_finals_addAll {statements : List Statement} {q : State} :
    q ∈ (d.addAll statements).finals ↔ q ∈ d.finals ∨ .final q ∈ statements := by
  have hadd : ∀ (d : Description) s, q ∈ (d.add s).finals ↔ q ∈ d.finals ∨ .final q = s := by
    intro d s
    cases s with
    | final p => rw [Statement.final.injEq, or_comm]; exact FinSet.mem_insert
    | start p => exact (or_iff_left Statement.noConfusion).symm
    | edge e => exact (or_iff_left Statement.noConfusion).symm
    | state p => exact (or_iff_left Statement.noConfusion).symm
  refine (holds_addAll_iff (fun d => q ∈ d.finals) (.final q = ·) hadd).trans ?_
  rw [exists_eq_right']

/-- States are there because they were mentioned. -/
theorem mem_states_addAll {statements : List Statement} {q : State} :
    q ∈ (d.addAll statements).states ↔ q ∈ d.states ∨ ∃ s ∈ statements, q ∈ s.states := by
  refine holds_addAll_iff (fun d => q ∈ d.states) (q ∈ ·.states) fun d s => ?_
  cases s with
  | edge e =>
    simp only [add, FinSet.mem_insert, Statement.states, List.mem_cons, List.not_mem_nil]
    tauto
  | start p => rw [Statement.states, List.mem_singleton, or_comm]; exact FinSet.mem_insert
  | final p => rw [Statement.states, List.mem_singleton, or_comm]; exact FinSet.mem_insert
  | state p => rw [Statement.states, List.mem_singleton, or_comm]; exact FinSet.mem_insert

/-- Symbols are there because an edge has them. -/
theorem mem_alphabet_addAll {statements : List Statement} {a : Char} :
    a ∈ (d.addAll statements).alphabet ↔
      a ∈ d.alphabet ∨ ∃ e, .edge e ∈ statements ∧ e.symbol = a := by
  have hadd : ∀ (d : Description) s, a ∈ (d.add s).alphabet ↔
      a ∈ d.alphabet ∨ ∃ e, .edge e = s ∧ e.symbol = a := by
    intro d s
    cases s with
    | edge f =>
      simp only [add, FinSet.mem_insert, Statement.edge.injEq, exists_eq_left]
      rw [or_comm, eq_comm]
    | start p => simp [add]
    | final p => simp [add]
    | state p => simp [add]
  refine (holds_addAll_iff (fun d => a ∈ d.alphabet)
    (fun s => ∃ e, .edge e = s ∧ e.symbol = a) hadd).trans (or_congr_right ⟨?_, ?_⟩)
  · rintro ⟨_, hs, e, rfl, he⟩
    exact ⟨e, hs, he⟩
  · rintro ⟨e, hs, he⟩
    exact ⟨_, hs, e, rfl, he⟩

/-- The start stays unless another one is named. -/
theorem start_addAll {statements : List Statement} (h : ∀ q, .start q ∉ statements) :
    (d.addAll statements).start = d.start := by
  induction statements generalizing d with
  | nil => rfl
  | cons s statements ih =>
    have hrest := ih (d := d.add s) fun q hq => h q (List.mem_cons_of_mem _ hq)
    refine hrest.trans ?_
    cases s with
    | start q => exact absurd List.mem_cons_self (h q)
    | final q => rfl
    | state q => rfl
    | edge e => rfl

/-- **What is described does not depend on the order of the statements**, nor on how often they are
made, as long as the same start is named last. -/
theorem addAll_congr {statements statements' : List Statement}
    (hstart : (d.addAll statements).start = (d.addAll statements').start)
    (hmem : ∀ s, s ∈ statements ↔ s ∈ statements') :
    d.addAll statements = d.addAll statements' := by
  have hstates : (d.addAll statements).states = (d.addAll statements').states :=
    FinSet.ext fun q => by simp only [mem_states_addAll, hmem]
  have hfinals : (d.addAll statements).finals = (d.addAll statements').finals :=
    FinSet.ext fun q => by simp only [mem_finals_addAll, hmem]
  have halphabet : (d.addAll statements).alphabet = (d.addAll statements').alphabet :=
    FinSet.ext fun a => by simp only [mem_alphabet_addAll, hmem]
  have hedges : (d.addAll statements).edges = (d.addAll statements').edges :=
    FinSet.ext fun e => by simp only [mem_edges_addAll, hmem]
  generalize d.addAll statements = d₁ at *
  generalize d.addAll statements' = d₂ at *
  cases d₁
  cases d₂
  simp only [mk.injEq]
  exact ⟨hstart, hstates, hfinals, halphabet, hedges⟩

/-! ## Reading a description only adds statements -/

theorem Closed.addLine {d' : Description} {number : Nat} {line : List Char} (h : d.Closed)
    (hok : d.addLine number line = .ok d') : d'.Closed := by
  rw [Description.addLine] at hok
  split at hok
  · cases hok
    exact h
  · split at hok
    · cases hok
      exact h.addAll _
    · cases hok

theorem Closed.addLines {d' : Description} {number : Nat} {lines : List (List Char)} (h : d.Closed)
    (hok : d.addLines number lines = .ok d') : d'.Closed := by
  induction lines generalizing d number with
  | nil =>
    cases hok
    exact h
  | cons line rest ih =>
    rw [Description.addLines] at hok
    split at hok
    · rename_i d₁ hline
      exact ih (h.addLine hline) hok
    · cases hok

theorem Closed.ofText {text : String} (hok : ofText text = .ok d) : d.Closed :=
  Closed.empty.addLines hok

end Description

/-! ## Automata from descriptions -/

/-- An automaton passes as deterministic exactly as what it is. -/
theorem NFA.asDFA_eq_ok_iff {A : NFA} {D : DFA} : A.asDFA = .ok D ↔ D.toNFA = A := by
  rw [NFA.asDFA]
  refine ⟨fun h => ?_, ?_⟩
  · cases hf : Relation.asFunctional A.edges with
    | error e =>
      rw [hf] at h
      cases h
    | ok f =>
      rw [hf] at h
      cases h
      have hedges := Relation.asFunctional_eq_ok_iff.1 hf
      cases A
      cases hedges
      rfl
  · rintro rfl
    have hf : Relation.asFunctional D.edges = .ok D.moves := Relation.asFunctional_eq_ok_iff.2 rfl
    rw [hf]
    rfl

/-- A deterministic automaton becomes a Moore machine exactly if all states that can be reached have
an output.  Outputs are kept for its states only. -/
theorem Moore.ofDFA_eq_ok_iff {D : DFA} {output : FinMap State Char} {m : Moore} :
    ofDFA D output = .ok m ↔ (∀ q, q ∈ D.reachable → ∃ a, output.get? q = some a) ∧
      m = ⟨D, output.filterKeys fun q => decide (q ∈ D.states)⟩ := by
  have hnone : D.reachable.toList.find? (fun q => (output.get? q).isNone) = none ↔
      ∀ q, q ∈ D.reachable → ∃ a, output.get? q = some a := by
    simp [Option.ne_none_iff_exists']
  rw [ofDFA, ← hnone]
  split
  · rename_i q hq
    exact ⟨(fun h => nomatch h), fun ⟨h, _⟩ => nomatch hq.symm.trans h⟩
  · rename_i hq
    rw [Except.ok.injEq]
    exact ⟨fun h => ⟨hq, h.symm⟩, fun ⟨_, h⟩ => h.symm⟩

namespace Description

variable {d : Description}

/-- A description is an automaton as soon as it has a start. -/
theorem toNFA_eq_ok_iff {A : NFA} : d.toNFA = .ok A ↔ ∃ q, d.start = some q ∧
    A = { states := d.states, alphabet := d.alphabet, start := q, finals := d.finals,
          edges := d.edges } := by
  rw [toNFA]
  cases d.start with
  | none => exact ⟨(fun h => nomatch h), fun ⟨_, h, _⟩ => nomatch h⟩
  | some q =>
    refine ⟨fun h => ?_, ?_⟩
    · cases h
      exact ⟨q, rfl, rfl⟩
    · rintro ⟨_, ⟨⟩, rfl⟩
      rfl

theorem wellFormed_toNFA {A : NFA} (h : d.Closed) (hok : d.toNFA = .ok A) : A.WellFormed := by
  obtain ⟨q, hq, rfl⟩ := toNFA_eq_ok_iff.1 hok
  exact ⟨h.start_mem q hq, h.finals_subset, h.source_mem, h.target_mem, h.symbol_mem⟩

/-- Asking for a deterministic automaton gives the automaton that is described, or fails. -/
theorem toDFA_eq_ok_iff {D : DFA} : d.toDFA = .ok D ↔ d.toNFA = .ok D.toNFA := by
  rw [toDFA]
  cases h : d.toNFA with
  | error e => exact ⟨(fun h => nomatch h), fun h => nomatch h⟩
  | ok A =>
    rw [Except.ok.injEq, eq_comm (a := A)]
    exact NFA.asDFA_eq_ok_iff

theorem wellFormed_toDFA {D : DFA} (h : d.Closed) (hok : d.toDFA = .ok D) : D.WellFormed :=
  wellFormed_toNFA h (toDFA_eq_ok_iff.1 hok)

/-- What a description with a start gives is deterministic if that is possible. -/
theorem toRecognizer_cases {A : NFA} (h : d.toNFA = .ok A) :
    (∃ D, D.toNFA = A ∧ d.toRecognizer = .ok (.deterministic D)) ∨
      ¬A.edges.IsFunctional ∧ d.toRecognizer = .ok (.nondeterministic A) := by
  rw [toRecognizer, h]
  cases hD : A.asDFA with
  | ok D =>
    refine .inl ⟨D, NFA.asDFA_eq_ok_iff.1 hD, ?_⟩
    simp only [bind, Except.bind, hD]
    rfl
  | error e =>
    refine .inr ⟨fun hfunctional => ?_, ?_⟩
    · have hok : A.asDFA = .ok ⟨A, hfunctional⟩ := NFA.asDFA_eq_ok_iff.2 rfl
      cases hD.symm.trans hok
    · simp only [bind, Except.bind, hD]
      rfl

/-- Whichever kind of automaton is made, it is the one that is described. -/
theorem toNFA_of_toRecognizer {r : Recognizer} (hok : d.toRecognizer = .ok r) :
    d.toNFA = .ok r.toNFA := by
  cases h : d.toNFA with
  | error e =>
    rw [toRecognizer, h] at hok
    cases hok
  | ok A =>
    rcases toRecognizer_cases h with ⟨D, rfl, hD⟩ | ⟨_, hA⟩
    · cases hok.symm.trans hD
      rfl
    · cases hok.symm.trans hA
      rfl

/-- A Moore machine is made from the deterministic automaton that is described. -/
theorem toDFA_of_toMoore {outputs : List (State × Char)} {m : Moore}
    (hok : d.toMoore outputs = .ok m) : d.toDFA = .ok m.automaton := by
  obtain ⟨D, hD, hm⟩ := bind_eq_ok_iff.1 hok
  obtain ⟨_, rfl⟩ := Moore.ofDFA_eq_ok_iff.1 hm
  exact hD

end Description

end Automata
