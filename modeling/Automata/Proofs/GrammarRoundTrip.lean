import Automata.Proofs.TableIndependence

/-!
# From an automaton to its grammar and back

The grammar of an automaton has a rule for each edge and nothing else, so its automaton has the
edges, and the states and symbols that they need.  Final states are lost on the way.  States may be
called like symbols or like the additional final state of a grammar, and the table may hold
anything before; only the empty name cannot be a symbol.

## What is here

* `NFA.skeleton` — what is left of an automaton without its final states.
* `Edge.written`, `NFA.written` — the grammar of an automaton, with names in place of symbols.
* `Refuses` — computations that fail for want of a name.
* `Grammar.obtains_ofAutomaton`, `Grammar.refuses_ofAutomaton` — when there is a grammar.
* `Grammar.StandsFor.toNFA_eq` — the automaton of what stands for the grammar of an automaton.
* `NFA.grammar_and_back` — **the grammar of an automaton leads back to its skeleton.**
-/

set_option autoImplicit false

namespace Automata

/-- The automaton without its final states, and without states and symbols that no edge needs. -/
def NFA.skeleton (A : NFA) : NFA where
  states := FinSet.ofList (A.start :: A.edges.toList.flatMap fun e => [e.source, e.target])
  alphabet := FinSet.ofList (A.edges.toList.map Edge.symbol)
  start := A.start
  finals := ∅
  edges := A.edges

/-- The rule of an edge, with names. -/
def Edge.written (e : Edge) : WrittenRule :=
  ⟨(.nonterminal, e.source), [(.terminal, String.singleton e.symbol), (.nonterminal, e.target)]⟩

/-- The grammar of an automaton, with names. -/
def NFA.written (A : NFA) : WrittenGrammar where
  root := (.nonterminal, A.start)
  rules := { n | ∃ e, e ∈ A.edges ∧ e.written = n }

namespace NFA

variable {A : NFA}

theorem mem_states_skeleton {q : State} : q ∈ A.skeleton.states ↔
    q = A.start ∨ ∃ e, e ∈ A.edges ∧ (q = e.source ∨ q = e.target) := by
  rw [skeleton, FinSet.mem_ofList, List.mem_cons, List.mem_flatMap]
  simp only [FinSet.mem_toList, List.mem_pair]

theorem empty_not_mem_skeleton (hstart : A.start ≠ "")
    (hedges : ∀ e, e ∈ A.edges → e.source ≠ "" ∧ e.target ≠ "") : "" ∉ A.skeleton.states := by
  rw [mem_states_skeleton, not_or]
  refine ⟨hstart.symm, ?_⟩
  rintro ⟨e, he, hends⟩
  obtain ⟨hsource, htarget⟩ := hedges e he
  exact hends.elim hsource.symm htarget.symm

theorem mem_alphabet_skeleton {a : Char} :
    a ∈ A.skeleton.alphabet ↔ ∃ e, e ∈ A.edges ∧ e.symbol = a := by
  rw [skeleton, FinSet.mem_ofList, List.mem_map]
  simp only [FinSet.mem_toList]

/-- Nothing is accepted where nothing is final. -/
theorem accepts_skeleton (A : NFA) (tape : List Char) : A.skeleton.accepts tape = false := by
  rw [Bool.eq_false_iff, ne_eq, accepts_iff]
  rintro ⟨q, _, hq⟩
  exact FinSet.not_mem_empty hq

end NFA

/-- Of a description that mentions the start, the states and the edges of a skeleton and nothing
else, the skeleton is the automaton. -/
theorem Description.toNFA_eq_skeleton {A : NFA} {statements : List Statement}
    (hstart : (empty.addAll statements).start = some A.start)
    (hmem : ∀ s, s ∈ statements ↔ s = .start A.start ∨
      (∃ q, q ∈ A.skeleton.states ∧ .state q = s) ∨ ∃ e, e ∈ A.edges ∧ .edge e = s) :
    (empty.addAll statements).toNFA = .ok A.skeleton := by
  have hedge : ∀ e, .edge e ∈ statements ↔ e ∈ A.edges := by simp [hmem]
  have hstates : (empty.addAll statements).states = A.skeleton.states := by
    refine FinSet.ext fun q =>
      mem_states_addAll.trans ((or_iff_right FinSet.not_mem_empty).trans ?_)
    refine ⟨?_, fun hq => ⟨.state q, (hmem _).2 (.inr (.inl ⟨q, hq, rfl⟩)), ?_⟩⟩
    · rintro ⟨s, hs, hq⟩
      rcases (hmem s).1 hs with rfl | ⟨p, hp, rfl⟩ | ⟨e, he, rfl⟩
      · exact NFA.mem_states_skeleton.2 (.inl (List.mem_singleton.1 hq))
      · exact List.mem_singleton.1 hq ▸ hp
      · exact NFA.mem_states_skeleton.2 (.inr ⟨e, he, List.mem_pair.1 hq⟩)
    · exact List.mem_singleton.2 rfl
  have halphabet : (empty.addAll statements).alphabet = A.skeleton.alphabet := by
    refine FinSet.ext fun a =>
      mem_alphabet_addAll.trans ((or_iff_right FinSet.not_mem_empty).trans ?_)
    simp only [hedge, NFA.mem_alphabet_skeleton]
  have hfinals : (empty.addAll statements).finals = ∅ := by
    refine FinSet.ext fun q =>
      mem_finals_addAll.trans ((or_iff_right FinSet.not_mem_empty).trans ?_)
    simp [hmem]
  have hedges : (empty.addAll statements).edges = A.edges := by
    refine FinSet.ext fun e =>
      mem_edges_addAll.trans ((or_iff_right FinSet.not_mem_empty).trans ?_)
    exact hedge e
  rw [toNFA_eq_ok_iff]
  refine ⟨A.start, hstart, ?_⟩
  rw [hstates, halphabet, hfinals, hedges]
  rfl

/-! ## Computations that fail for want of a name -/

section Refuses

variable {α β : Type} {labels : Set Label} {P : SymbolTable → α → Prop} {t : SymbolTable}

/-- Run on the table `t`, the computation fails because a symbol has no name. -/
def Refuses (x : Interning α) (t : SymbolTable) : Prop :=
  ∃ t', x.run t = .error .emptySymbolName t'

theorem Refuses.intern (kind : SymbolKind) (t : SymbolTable) : Refuses (intern kind "") t :=
  ⟨t, SymbolTable.run_intern kind "" t⟩

/-- A failure is the end. -/
theorem Refuses.bind {x : Interning α} (h : Refuses x t) (f : α → Interning β) :
    Refuses (x >>= f) t := by
  obtain ⟨t', hrun⟩ := h
  exact ⟨t', by rw [EStateM.run_bind, hrun]⟩

/-- A failure may come after a success. -/
theorem Obtains.refuses_bind {x : Interning α} {f : α → Interning β} (hx : Obtains labels x P t)
    (hf : ∀ a t', Refuses (f a) t') : Refuses (x >>= f) t := by
  obtain ⟨a, t₁, hrun, _⟩ := hx
  obtain ⟨t₂, hrun'⟩ := hf a t₁
  refine ⟨t₂, ?_⟩
  rw [EStateM.run_bind, hrun]
  exact hrun'

/-- If each step either succeeds or fails for want of a name, the first failure is the end. -/
theorem Refuses.mapM {f : α → Interning β} {Q : α → SymbolTable → β → Prop} {l : List α}
    (hall : ∀ a ∈ l, ∀ t, Refuses (f a) t ∨ Obtains Set.univ (f a) (Q a) t)
    (hsome : ∃ a ∈ l, ∀ t, Refuses (f a) t) : Refuses (l.mapM f) t := by
  induction l generalizing t with
  | nil =>
    obtain ⟨_, ha, _⟩ := hsome
    exact absurd ha List.not_mem_nil
  | cons a l ih =>
    rw [List.mapM_cons]
    rcases hall a List.mem_cons_self t with hfail | hok
    · exact hfail.bind _
    · obtain ⟨a', ha', hfail⟩ := hsome
      rcases List.mem_cons.1 ha' with rfl | ha'
      · exact (hfail t).bind _
      · refine hok.refuses_bind fun b t' => Refuses.bind ?_ _
        exact ih (fun c hc => hall c (List.mem_cons_of_mem _ hc)) ⟨a', ha', hfail⟩

end Refuses

namespace Grammar

/-! ## From an automaton to its grammar -/

variable {A : NFA} {e : Edge} {table : SymbolTable}

theorem obtains_ruleOfEdge (hsource : e.source ≠ "") (htarget : e.target ≠ "") (t : SymbolTable) :
    Obtains Set.univ (ruleOfEdge e) (fun t r => r.StandsFor t e.written) t := by
  rw [ruleOfEdge]
  refine .bind (.intern hsource trivial) fun left t₁ _ hleft =>
    .bind (.intern String.singleton_ne_empty trivial) fun a t₂ hgrows ha =>
      .bind (.intern htarget trivial) fun n t₃ hgrows' hn => .pure fun t₄ hgrows'' => ?_
  refine ⟨hleft t₄ ((hgrows.trans hgrows').trans hgrows''), ?_⟩
  exact .cons (ha t₄ (hgrows'.trans hgrows'')) (.cons (hn t₄ hgrows'') .nil)

/-- An edge has no rule if one of its states has no name. -/
theorem refuses_ruleOfEdge (h : e.source = "" ∨ e.target = "") (t : SymbolTable) :
    Refuses (ruleOfEdge e) t := by
  rw [ruleOfEdge]
  by_cases hsource : e.source = ""
  · rw [hsource]
    exact (Refuses.intern .nonterminal t).bind _
  · have htarget : e.target = "" := h.resolve_left hsource
    refine Obtains.refuses_bind (Obtains.intern hsource (Set.mem_univ _)) fun left t₁ => ?_
    refine Obtains.refuses_bind
      (Obtains.intern String.singleton_ne_empty (Set.mem_univ _)) fun a t₂ => ?_
    rw [htarget]
    exact (Refuses.intern .nonterminal t₂).bind _

/-- **The grammar of an automaton stands for its edges.** -/
theorem obtains_ofAutomaton (h : "" ∉ A.skeleton.states) (t : SymbolTable) :
    Obtains Set.univ (ofAutomaton A) (fun t g => g.StandsFor t A.written) t := by
  rw [NFA.mem_states_skeleton, not_or] at h
  have hends : ∀ e, e ∈ A.edges → e.source ≠ "" ∧ e.target ≠ "" := by
    intro e he
    refine ⟨fun hs => h.2 ⟨e, he, .inl hs.symm⟩, fun ht => h.2 ⟨e, he, .inr ht.symm⟩⟩
  rw [ofAutomaton]
  refine .bind (.intern (Ne.symm h.1) (Set.mem_univ _)) fun root t₁ _ hroot =>
    .bind (.mapM fun e he t' _ => obtains_ruleOfEdge (hends e he).1 (hends e he).2 t')
      fun rules t₂ hgrows hrules => .pure fun t₃ hgrows' => ?_
  refine ⟨hroot t₃ (hgrows.trans hgrows'), fun r hr => ?_, ?_⟩
  · obtain ⟨e, he, hre⟩ := exists_right_of_forall₂ (hrules t₃ hgrows') (FinSet.mem_ofList.1 hr)
    exact ⟨e.written, ⟨e, he, rfl⟩, hre⟩
  · rintro _ ⟨e, he, rfl⟩
    obtain ⟨r, hr, hre⟩ := exists_left_of_forall₂ (hrules t₃ hgrows') he
    exact ⟨r, FinSet.mem_ofList.2 hr, hre⟩

/-- There is no grammar without names. -/
theorem refuses_ofAutomaton (h : "" ∈ A.skeleton.states) (t : SymbolTable) :
    Refuses (ofAutomaton A) t := by
  rw [ofAutomaton]
  by_cases hstart : A.start = ""
  · rw [hstart]
    exact (Refuses.intern .nonterminal t).bind _
  · obtain ⟨e, he, hends⟩ := (NFA.mem_states_skeleton.1 h).resolve_left (Ne.symm hstart)
    have hrules : ∀ e ∈ A.edges.toList, ∀ t, Refuses (ruleOfEdge e) t ∨
        Obtains Set.univ (ruleOfEdge e) (fun t r => r.StandsFor t e.written) t := by
      intro e _ t'
      by_cases hfail : e.source = "" ∨ e.target = ""
      · exact .inl (refuses_ruleOfEdge hfail t')
      · rw [not_or] at hfail
        exact .inr (obtains_ruleOfEdge hfail.1 hfail.2 t')
    have hfail : e.source = "" ∨ e.target = "" := hends.imp Eq.symm Eq.symm
    refine Obtains.refuses_bind (Obtains.intern hstart (Set.mem_univ _)) fun root t₁ => ?_
    exact (Refuses.mapM hrules ⟨e, he, refuses_ruleOfEdge hfail⟩).bind _

/-! ## And back -/

section Back

variable {g : Grammar} {r : Rule} {n root : Symbol} {accept : State}
  {q : State}

/-- A rule that stands for an edge says that there is the edge. -/
theorem statementsOfRule_of_standsFor (h : r.StandsFor table e.written) :
    statementsOfRule table root accept r = .ok [.edge e] := by
  obtain ⟨left, right⟩ := r
  obtain ⟨hleft, hright⟩ := h
  obtain ⟨a, _, ha, hrest, rfl⟩ := List.forall₂_cons_right_iff.1 hright
  obtain ⟨m, _, hm, hnil, rfl⟩ := List.forall₂_cons_right_iff.1 hrest
  obtain rfl := List.forall₂_nil_right_iff.1 hnil
  have hterminal := Symbol.isTerminal_iff.2 ha.1
  have hnonterminal := Symbol.isNonterminal_iff.2 hm.1
  rw [statementsOfRule_eq_ok_iff]
  exact .next hleft.nameOf hterminal ha.nameOf hnonterminal hm.nameOf

/-- The nonterminals that the grammar is written with are the states of the edges, and the start. -/
theorem exists_nonterminal_written :
    (∃ l ∈ A.written.nonterminals, l.2 = q) ↔ q ∈ A.skeleton.states := by
  rw [NFA.mem_states_skeleton]
  refine ⟨?_, ?_⟩
  · rintro ⟨l, rfl | ⟨_, ⟨e, he, rfl⟩, rfl⟩ | ⟨_, ⟨e, he, rfl⟩, hl, hkind⟩, rfl⟩
    · exact .inl rfl
    · exact .inr ⟨e, he, .inl rfl⟩
    · rcases List.mem_pair.1 hl with rfl | rfl
      · cases hkind
      · exact .inr ⟨e, he, .inr rfl⟩
  · rintro (rfl | ⟨e, he, rfl | rfl⟩)
    · exact ⟨_, .inl rfl, rfl⟩
    · exact ⟨_, .inr (.inl ⟨e.written, ⟨e, he, rfl⟩, rfl⟩), rfl⟩
    · exact ⟨(.nonterminal, e.target),
        .inr (.inr ⟨e.written, ⟨e, he, rfl⟩, List.mem_pair.2 (.inr rfl), rfl⟩), rfl⟩

/-- The rules say that there are the edges, and nothing else. -/
theorem StandsFor.mapM_statementsOfRule (h : g.StandsFor table A.written) :
    ∃ said, g.rules.toList.mapM (statementsOfRule table root accept) = .ok said ∧
      ∀ s, s ∈ said.flatten ↔ ∃ e, e ∈ A.edges ∧ .edge e = s := by
  have hall : ∀ r ∈ g.rules.toList, ∃ l, statementsOfRule table root accept r = .ok l := by
    intro r hr
    obtain ⟨_, ⟨e, _, rfl⟩, hre⟩ := h.rule r hr
    exact ⟨_, statementsOfRule_of_standsFor hre⟩
  obtain ⟨said, hsaid⟩ := exists_mapM_eq_ok hall
  refine ⟨said, hsaid, fun s => ?_⟩
  simp only [List.mem_flatten, mem_of_mapM_eq_ok hsaid]
  refine ⟨?_, ?_⟩
  · rintro ⟨l, ⟨r, hr, hl⟩, hs⟩
    obtain ⟨_, ⟨e, he, rfl⟩, hre⟩ := h.rule r hr
    rw [statementsOfRule_of_standsFor hre, Except.ok.injEq] at hl
    subst hl
    exact ⟨e, he, (List.mem_singleton.1 hs).symm⟩
  · rintro ⟨e, he, rfl⟩
    obtain ⟨r, hr, hre⟩ := h.written _ ⟨e, he, rfl⟩
    exact ⟨_, ⟨r, hr, statementsOfRule_of_standsFor hre⟩, List.mem_singleton.2 rfl⟩

/-- **What stands for the grammar of an automaton leads to the skeleton of the automaton.** -/
theorem StandsFor.toNFA_eq (h : g.StandsFor table A.written) :
    g.toNFA table = .ok A.skeleton := by
  obtain ⟨states, hstates, hstate⟩ := h.mapM_nameOf
  obtain ⟨said, hsaid, hedge⟩ := h.mapM_statementsOfRule
  refine bind_eq_ok_iff.2 ⟨states, hstates, bind_eq_ok_iff.2 ⟨A.start, h.root.nameOf,
    bind_eq_ok_iff.2 ⟨said, hsaid, Description.toNFA_eq_skeleton ?_ ?_⟩⟩⟩
  · exact Description.start_addAll (start_not_mem_said hsaid)
  · intro s
    simp only [List.cons_append, List.mem_cons, List.mem_append, List.mem_map, hstate,
      exists_nonterminal_written, hedge]

end Back

end Grammar

namespace NFA

/-- **The grammar of an automaton leads back to its skeleton.**  There is a grammar unless the start
or a state of an edge has the empty name, and then its automaton has the start, the edges and what
they need, whatever the states are called and the table held before.  The grammar of a deterministic
automaton is that of the same automaton with its determinism forgotten. -/
theorem grammar_and_back (A : NFA) (table : SymbolTable) :
    (if "" ∈ A.skeleton.states then
      ∃ table', (Grammar.ofAutomaton A).run table = .error .emptySymbolName table'
    else
      ∃ g table', (Grammar.ofAutomaton A).run table = .ok g table' ∧
        ∀ later, table'.Grows later → g.toNFA later = .ok A.skeleton) ∧
    ∀ tape, A.skeleton.accepts tape = false := by
  refine ⟨?_, accepts_skeleton A⟩
  split
  · rename_i h
    exact Grammar.refuses_ofAutomaton h table
  · rename_i h
    obtain ⟨g, table', hrun, _, _, hg⟩ := Grammar.obtains_ofAutomaton h table
    exact ⟨g, table', hrun, fun later hgrows => (hg later hgrows).toNFA_eq⟩

/-- States that are called like the symbol and like the additional final state of a grammar, one of
them without edges. -/
def crossed : NFA where
  states := FinSet.ofList ["FIN", "a", "b"]
  alphabet := FinSet.ofList ['a', 'b']
  start := "a"
  finals := FinSet.ofList ["FIN"]
  edges := FinSet.ofList [⟨"a", 'a', "FIN"⟩, ⟨"FIN", 'a', "a"⟩]

/-- A table in which names of `crossed` are taken already. -/
def crossedTable : SymbolTable := ⟨[(.terminal, "FIN"), (.nonterminal, "a")]⟩

theorem crossed_grammar_and_back :
    ("" ∉ crossed.skeleton.states ∧ ∃ g table',
      (Grammar.ofAutomaton crossed).run crossedTable = .ok g table' ∧
        table'.Grows table' ∧ g.toNFA table' = .ok crossed.skeleton) ∧
    "" ∈ { crossed with start := "" }.skeleton.states ∧ ∃ table',
      (Grammar.ofAutomaton { crossed with start := "" }).run crossedTable =
        .error .emptySymbolName table' := by
  have hnamed : "" ∉ crossed.skeleton.states := by decide
  have hnameless : "" ∈ { crossed with start := "" }.skeleton.states := by decide
  obtain ⟨hok, _⟩ := grammar_and_back crossed crossedTable
  obtain ⟨herror, _⟩ := grammar_and_back { crossed with start := "" } crossedTable
  rw [if_neg hnamed] at hok
  rw [if_pos hnameless] at herror
  obtain ⟨g, table', hrun, hback⟩ := hok
  exact ⟨⟨hnamed, g, table', hrun, .refl, hback table' .refl⟩, hnameless, herror⟩

end NFA

end Automata
