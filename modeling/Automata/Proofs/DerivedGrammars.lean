import Automata.Proofs.AddedSymbols
import Automata.Proofs.DescriptionFormat
import Automata.Proofs.GrammarPrinting
import Automata.Proofs.GrammarRoundTrip
import Mathlib

/-!
# Reading the grammar of an automaton

In the text of a grammar the nonterminals are the names on the left, and the first of them is the
root.  The grammar of an automaton can have others: a state without edges has no rules, and neither
has the start if no edge leaves it.  Reading takes the former for terminals and the latter for
missing, and where a symbol is called like a state with edges it takes the symbol for the state.
These are the only ways for the grammar to get lost, as names from the text of an automaton are not
taken for something else.

## What is here

* `Grammar.StandsFor.unique` — a grammar stands for one written grammar only.
* `Grammar.StandsFor.reads` — the text of a grammar is read as some grammar, and **as the grammar
  itself exactly if what it stands for is legible.**
* `NFA.Traceable` — the automata whose grammars are legible, and `NFA.legible_written_iff`.
* `Description.edges_of_ofText` — the edges that a text can speak of.
* `Description.derived_reads_back` — **when the grammar of an automaton is read back.**
-/

set_option autoImplicit false

namespace Automata

open Text

/-! ## What a grammar stands for -/

section Unique

variable {table : SymbolTable} {r : Rule} {n n' : WrittenRule} {g : Grammar}
  {w w' : WrittenGrammar}

/-- A rule stands for one written rule only. -/
theorem Rule.StandsFor.unique (h : r.StandsFor table n) (h' : r.StandsFor table n') : n = n' := by
  have hright : n.right = n'.right :=
    Relator.RightUnique.forall₂ (fun _ _ _ hs hs' => hs.label_eq hs') h.right h'.right
  cases n
  cases n'
  exact congrArg₂ WrittenRule.mk (h.left.label_eq h'.left) hright

theorem Grammar.StandsFor.rules_subset (h : g.StandsFor table w) (h' : g.StandsFor table w') :
    w.rules ⊆ w'.rules := by
  intro n hn
  obtain ⟨r, hr, hrn⟩ := h.written n hn
  obtain ⟨n', hn', hrn'⟩ := h'.rule r hr
  exact hrn.unique hrn' ▸ hn'

/-- **A grammar stands for one written grammar only.** -/
theorem Grammar.StandsFor.unique (h : g.StandsFor table w) (h' : g.StandsFor table w') : w = w' :=
  WrittenGrammar.ext (h.root.label_eq h'.root)
    (Set.Subset.antisymm (h.rules_subset h') (h'.rules_subset h))

end Unique

/-! ## Reading what was printed -/

namespace Grammar

variable {table later : SymbolTable} {g : Grammar} {w : WrittenGrammar}

theorem lineOrder_ne_nil (h : ∃ r, r ∈ g.rules) : g.lineOrder ≠ [] := by
  obtain ⟨r, hr⟩ := h
  exact List.ne_nil_of_mem (mem_lineOrder.2 ⟨r, hr, rfl⟩)

/-- The root of a legible grammar has rules. -/
theorem StandsFor.exists_root_rule (ht : table.entries.Nodup) (h : g.StandsFor table w)
    (hw : w.Legible) : ∃ r, r ∈ g.rules ∧ r.left = g.root := by
  obtain ⟨n, hn, hleft⟩ := hw.root_left
  obtain ⟨r, hr, hrn⟩ := h.written n hn
  exact ⟨r, hr, (hleft ▸ hrn.left).eq ht h.root⟩

/-- A grammar without rules leaves nothing to read. -/
theorem run_ofText_shown_of_no_rules (h : ¬∃ r, r ∈ g.rules) :
    (ofText (g.shown table)).run later = .error .missingStart later := by
  have hnil : g.lineOrder = [] := by
    refine List.eq_nil_iff_forall_not_mem.2 fun s hs => ?_
    obtain ⟨r, hr, _⟩ := mem_lineOrder.1 hs
    exact h ⟨r, hr⟩
  rw [shown, hnil, List.map_nil]
  exact run_ofText_of_blank (by decide) later

/-- **The text of a grammar is read as some grammar, and as the grammar itself exactly if what it
stands for is legible.** -/
theorem StandsFor.reads (ht : later.Obtainable) (hgrows : table.Grows later)
    (h : g.StandsFor table w) (hw : w.Spelled) (hrules : ∃ r, r ∈ g.rules) :
    ∃ g' later', (ofText (g.shown table)).run later = .ok g' later' ∧ (g' = g ↔ w.Legible) := by
  obtain ⟨s, rest, hlines⟩ := List.exists_cons_of_ne_nil (lineOrder_ne_nil hrules)
  have hheads := heads_shown_of_spelled h hw (hlines ▸ List.cons_ne_nil s rest)
  rw [hlines] at hheads
  obtain ⟨g', later', hrun, hgrows', _, hread⟩ := obtains_ofText hheads later
  refine ⟨g', later', hrun, ?_, fun hlegible => ?_⟩
  · rintro rfl
    -- what was read is legible, and is what the grammar stands for
    rw [(h.grows (hgrows.trans hgrows')).unique (hread later' .refl)]
    exact legible_writtenGrammar hheads
  · have hnodup := (ht.grows hgrows').nodup
    have h' := h.grows (hgrows.trans hgrows')
    obtain ⟨rest', hlines'⟩ := lineOrder_eq_cons (h'.exists_root_rule hnodup hlegible)
    obtain ⟨rfl, rfl⟩ := List.cons.inj (hlines.symm.trans hlines')
    have hwritten := writtenGrammar_shown h hlegible hlines
    exact (hwritten ▸ hread later' .refl).eq hnodup h'

end Grammar

/-! ## Grammars of automata -/

/-- In the grammar of the automaton, every state is the left side of a rule, and no symbol is called
like one. -/
structure NFA.Traceable (A : NFA) : Prop where
  /-- An edge leaves the start. -/
  start : ∃ e, e ∈ A.edges ∧ e.source = A.start
  /-- Where an edge ends another one begins. -/
  target : ∀ e, e ∈ A.edges → ∃ e', e' ∈ A.edges ∧ e'.source = e.target
  /-- No symbol is the name of a state that an edge leaves. -/
  symbol : ∀ e, e ∈ A.edges → ∀ e', e' ∈ A.edges → e'.source ≠ String.singleton e.symbol

/-- A text can give the parts of the edge these names. -/
structure Edge.Spelled (e : Edge) : Prop where
  source : Description.IsName e.source.toList
  symbol : Description.IsToken [e.symbol]
  target : Description.IsToken e.target.toList

namespace NFA

variable {A : NFA} {e : Edge} {l : Label}

theorem mem_right_written : l ∈ e.written.right ↔
    l = (.terminal, String.singleton e.symbol) ∨ l = (.nonterminal, e.target) := List.mem_pair

/-- Names from a text are not taken for something else. -/
theorem spelled_written (h : ∀ e, e ∈ A.edges → e.Spelled) : A.written.Spelled where
  left_name := by
    rintro _ ⟨e, he, rfl⟩
    have hsource := (h e he).source
    exact ⟨⟨hsource.ne_nil, hsource.solid⟩, hsource.noArrow⟩
  right_name := by
    rintro _ ⟨e, he, rfl⟩ l hl
    obtain ⟨_, hsymbol, htarget⟩ := h e he
    rcases mem_right_written.1 hl with rfl | rfl
    · rw [IsWord, String.toList_singleton]
      exact ⟨⟨hsymbol.ne_nil, hsymbol.solid⟩, hsymbol.bar_not_mem⟩
    · exact ⟨⟨htarget.ne_nil, htarget.solid⟩, htarget.bar_not_mem⟩

/-- The left sides are the states that edges leave. -/
theorem exists_left_written_iff {q : State} :
    (∃ n ∈ A.written.rules, n.left.2 = q) ↔ ∃ e, e ∈ A.edges ∧ e.source = q := by
  constructor
  · rintro ⟨_, ⟨e, he, rfl⟩, hq⟩
    exact ⟨e, he, hq⟩
  · rintro ⟨e, he, hq⟩
    exact ⟨e.written, ⟨e, he, rfl⟩, hq⟩

/-- **The grammar of an automaton is legible exactly if the automaton is traceable**, if all names
are from a text. -/
theorem legible_written_iff (h : ∀ e, e ∈ A.edges → e.Spelled) :
    A.written.Legible ↔ A.Traceable := by
  constructor
  · intro hw
    refine ⟨?_, fun e he => ?_, fun e he e' he' hname => ?_⟩
    · obtain ⟨n, hn, hleft⟩ := hw.root_left
      exact exists_left_written_iff.1 ⟨n, hn, congrArg Prod.snd hleft⟩
    · have hkind := hw.right_kind _ ⟨e, he, rfl⟩ _ (mem_right_written.2 (.inr rfl))
      exact exists_left_written_iff.1 (hkind.1 rfl)
    · have hkind := hw.right_kind _ ⟨e, he, rfl⟩ _ (mem_right_written.2 (.inl rfl))
      cases hkind.2 (exists_left_written_iff.2 ⟨e', he', hname⟩)
  · intro hA
    obtain ⟨hleft, hright⟩ := spelled_written h
    refine ⟨?_, ?_, hleft, hright, ?_, ?_⟩
    · obtain ⟨e, he, hsource⟩ := hA.start
      exact ⟨e.written, ⟨e, he, rfl⟩, congrArg (Prod.mk SymbolKind.nonterminal) hsource⟩
    · rintro _ ⟨e, _, rfl⟩
      rfl
    · rintro _ ⟨e, he, rfl⟩ l hl
      rw [exists_left_written_iff]
      rcases mem_right_written.1 hl with rfl | rfl
      · refine iff_of_false SymbolKind.noConfusion ?_
        rintro ⟨e', he', hname⟩
        exact hA.symbol e he e' he' hname
      · exact iff_of_true rfl (hA.target e he)
    · rintro _ ⟨e, _, rfl⟩ l hl
      cases hl

end NFA

/-! ## Automata from texts -/

namespace Description

variable {d : Description} {text : String} {e : Edge} {q : State} {statements : List Statement}
  {l : List Char}

theorem IsToken.head {a : Char} (h : IsToken (a :: l)) : IsToken [a] where
  ne_nil := List.cons_ne_nil a []
  solid := fun c hc => h.solid c (List.mem_singleton.1 hc ▸ List.mem_cons_self)
  bar_not_mem := fun hbar => h.bar_not_mem (List.mem_singleton.1 hbar ▸ List.mem_cons_self)

theorem IsToken.tail {a : Char} (h : IsToken (a :: l)) (hne : l ≠ []) : IsToken l where
  ne_nil := hne
  solid := fun c hc => h.solid c (List.mem_cons_of_mem a hc)
  bar_not_mem := fun hbar => h.bar_not_mem (List.mem_cons_of_mem a hbar)

theorem Alternative.spelled (h : Alternative q e l) (hq : IsName q.toList) : e.Spelled := by
  cases h with
  | spaced _ _ _ _ ha htarget =>
    exact ⟨hq, ha, by rwa [String.toList_ofList]⟩
  | joined _ _ hne htoken =>
    exact ⟨hq, htoken.head, by rw [String.toList_ofList]; exact htoken.tail hne⟩

theorem Alternatives.spelled (h : Alternatives q statements l) (hq : IsName q.toList)
    (he : .edge e ∈ statements) : e.Spelled := by
  induction h with
  | last halt =>
    cases List.mem_singleton.1 he
    exact halt.spelled hq
  | more halt _ ih =>
    rcases List.mem_cons.1 he with he | he
    · cases he
      exact halt.spelled hq
    · exact ih he

theorem edge_not_mem_headStatements {isStart isFinal : Bool} :
    .edge e ∉ headStatements isStart isFinal q := by
  cases isStart <;> cases isFinal <;> simp [headStatements]

/-- The edges of a line have names from a text. -/
theorem Line.spelled (h : Line statements l) (he : .edge e ∈ statements) : e.Spelled := by
  cases h with
  | blank => cases he
  | bare => exact absurd he edge_not_mem_headStatements
  | arrow _ hname _ halts =>
    have hedge := (List.mem_append.1 he).resolve_left edge_not_mem_headStatements
    exact halts.spelled (by rwa [String.toList_ofList]) hedge

/-- The start of a line has a name from a text. -/
theorem Line.isName_start (h : Line statements l) (hq : .start q ∈ statements) :
    IsName q.toList := by
  cases h with
  | blank => cases hq
  | bare _ hname =>
    obtain ⟨_, rfl⟩ := start_mem_headStatements.1 hq
    rwa [String.toList_ofList]
  | arrow _ hname _ halts =>
    obtain ⟨_, rfl⟩ := halts.start_mem_append_iff.1 hq
    rwa [String.toList_ofList]

/-- What a text says is said by its lines. -/
theorem exists_line_of_ofText (h : ofText text = .ok d) : ∃ statements,
    d = empty.addAll statements ∧ OneStart none statements ∧
      ∀ s ∈ statements, ∃ l line, Line l line ∧ s ∈ l := by
  obtain ⟨statements, ⟨said, hsaid, rfl, hone⟩, rfl⟩ := addLines_eq_ok_iff.1 h
  refine ⟨_, rfl, hone, fun s hs => ?_⟩
  obtain ⟨l, hl, hs⟩ := List.mem_flatten.1 hs
  obtain ⟨line, _, hline⟩ := exists_left_of_forall₂ hsaid hl
  exact ⟨l, trimmed line, hline, hs⟩

/-- **The start and the edges of an automaton from a text have names from a text.** -/
theorem spelled_of_ofText {A : NFA} (h : ofText text = .ok d) (hA : d.toNFA = .ok A) :
    IsName A.start.toList ∧ ∀ e, e ∈ A.edges → e.Spelled := by
  obtain ⟨statements, rfl, hone, hsaid⟩ := exists_line_of_ofText h
  obtain ⟨start, hstart, rfl⟩ := toNFA_eq_ok_iff.1 hA
  constructor
  · have hnamed : .start start ∈ statements :=
      ((start_addAll_eq_some_iff hone).1 hstart).resolve_left (Option.some_ne_none start).symm
    obtain ⟨l, line, hline, hs⟩ := hsaid _ hnamed
    exact hline.isName_start hs
  · intro e he
    have hmem := (mem_edges_addAll.1 he).resolve_left FinSet.not_mem_empty
    obtain ⟨l, line, hline, hs⟩ := hsaid _ hmem
    exact hline.spelled hs

end Description

/-! ## Reading them back -/

theorem ne_empty_of_toList {name : String} (h : name.toList ≠ []) : name ≠ "" := by
  rintro rfl
  exact h rfl

/-- The grammar of an automaton has a rule exactly if the automaton has an edge. -/
theorem Grammar.StandsFor.exists_rule_iff {g : Grammar} {table : SymbolTable} {A : NFA}
    (h : g.StandsFor table A.written) : (∃ r, r ∈ g.rules) ↔ ∃ e, e ∈ A.edges := by
  constructor
  · rintro ⟨r, hr⟩
    obtain ⟨_, ⟨e, he, _⟩, _⟩ := h.rule r hr
    exact ⟨e, he⟩
  · rintro ⟨e, he⟩
    obtain ⟨r, hr, _⟩ := h.written _ ⟨e, he, rfl⟩
    exact ⟨r, hr⟩

namespace Description

/-- **When the grammar of an automaton is read back.**  An automaton from a text has a grammar,
which can be printed.  Without edges nothing is printed, and nothing can be read.  Otherwise the
text is read as some grammar on the same table, which is the grammar of the automaton exactly if an
edge leaves the start and every state where an edge ends, and no symbol is the name of a state that
an edge leaves. -/
theorem derived_reads_back {text : String} {d : Description} {A : NFA} {table : SymbolTable}
    (htext : ofText text = .ok d)
    (hA : d.toNFA = .ok A ∨ ∃ D, d.toDFA = .ok D ∧ D.toNFA = A) (ht : table.Obtainable) :
    ∃ g table' printed, (Grammar.ofAutomaton A).run table = .ok g table' ∧
      ∀ later, table'.Grows later → g.render later = .ok printed ∧
        ((¬∃ e, e ∈ A.edges) →
          (Grammar.ofText printed).run later = .error .missingStart later) ∧
        ((∃ e, e ∈ A.edges) → ∃ g' later',
          (Grammar.ofText printed).run later = .ok g' later' ∧ (g' = g ↔ A.Traceable)) := by
  have hok : d.toNFA = .ok A := by
    rcases hA with hA | ⟨D, hD, rfl⟩
    · exact hA
    · exact toDFA_eq_ok_iff.1 hD
  obtain ⟨hstart, hedges⟩ := spelled_of_ofText htext hok
  have hnamed : "" ∉ A.skeleton.states :=
    NFA.empty_not_mem_skeleton (ne_empty_of_toList hstart.ne_nil) fun e he =>
      ⟨ne_empty_of_toList (hedges e he).source.ne_nil,
        ne_empty_of_toList (hedges e he).target.ne_nil⟩
  obtain ⟨g, table', hrun, hgrows, _, hg⟩ := Grammar.obtains_ofAutomaton hnamed table
  have hstands := hg table' .refl
  refine ⟨g, table', g.shown table', hrun, fun later hlater => ?_⟩
  refine ⟨Grammar.render_eq_shown hstands hlater, fun hnone => ?_, fun hsome => ?_⟩
  · exact Grammar.run_ofText_shown_of_no_rules (mt hstands.exists_rule_iff.1 hnone)
  · obtain ⟨g', later', hread, hsame⟩ := hstands.reads ((ht.grows hgrows).grows hlater) hlater
      (NFA.spelled_written hedges) (hstands.exists_rule_iff.2 hsome)
    exact ⟨g', later', hread, hsame.trans (NFA.legible_written_iff hedges)⟩

/-- Two states with edges to each other. -/
def exchange : String := "-> s -> a t | b s\n() t -> a s"

/-- The automaton of `exchange`. -/
def exchangeAutomaton : NFA where
  states := FinSet.ofList ["s", "t"]
  alphabet := FinSet.ofList ['a', 'b']
  start := "s"
  finals := FinSet.ofList ["t"]
  edges := FinSet.ofList [⟨"s", 'a', "t"⟩, ⟨"s", 'b', "s"⟩, ⟨"t", 'a', "s"⟩]

/-- A table with a terminal that is called like a state. -/
def exchangeTable : SymbolTable := ⟨[(.terminal, "t")]⟩

theorem traceable_exchangeAutomaton : exchangeAutomaton.Traceable where
  start := ⟨⟨"s", 'a', "t"⟩, by decide⟩
  target := by
    have hall : ∀ e ∈ exchangeAutomaton.edges.toList,
        ∃ e' ∈ exchangeAutomaton.edges.toList, e'.source = e.target := by decide
    exact hall
  symbol := by
    have hall : ∀ e ∈ exchangeAutomaton.edges.toList, ∀ e' ∈ exchangeAutomaton.edges.toList,
        e'.source ≠ String.singleton e.symbol := by decide
    exact hall

theorem exchange_reads_back : exchangeTable.Obtainable ∧
    ∃ d, ofText exchange = .ok d ∧ d.toNFA = .ok exchangeAutomaton ∧
    ∃ g table' printed, (Grammar.ofAutomaton exchangeAutomaton).run exchangeTable = .ok g table' ∧
      table'.Grows table' ∧ g.render table' = .ok printed ∧
      (∃ e, e ∈ exchangeAutomaton.edges) ∧
      ∃ later', (Grammar.ofText printed).run table' = .ok g later' := by
  have htable : exchangeTable.Obtainable := .single ⟨.terminal, "t", ⟨0, .terminal⟩, by cbv⟩
  have hread : ofText exchange = .ok (empty.addAll [.start "s", .state "s", .edge ⟨"s", 'a', "t"⟩,
      .edge ⟨"s", 'b', "s"⟩, .final "t", .state "t", .edge ⟨"t", 'a', "s"⟩]) := by cbv
  have hedges : ∃ e, e ∈ exchangeAutomaton.edges := ⟨⟨"s", 'a', "t"⟩, by decide⟩
  obtain ⟨g, table', printed, hrun, hback⟩ := derived_reads_back hread (.inl rfl) htable
  obtain ⟨hrender, _, hsome⟩ := hback table' .refl
  obtain ⟨g', later', hagain, hsame⟩ := hsome hedges
  obtain rfl := hsame.2 traceable_exchangeAutomaton
  exact ⟨htable, _, hread, rfl, g', table', printed, hrun, .refl, hrender, hedges, later', hagain⟩

/-- The automaton of `-> s -> a s | b t`, in which no edge leaves `t`. -/
def deadEnd : NFA where
  states := FinSet.ofList ["s", "t"]
  alphabet := FinSet.ofList ['a', 'b']
  start := "s"
  finals := ∅
  edges := FinSet.ofList [⟨"s", 'a', "s"⟩, ⟨"s", 'b', "t"⟩]

/-- The grammar of `deadEnd`. -/
def deadEndGrammar : Grammar where
  root := ⟨0, .nonterminal⟩
  rules := FinSet.ofList [⟨⟨0, .nonterminal⟩, [⟨1, .terminal⟩, ⟨0, .nonterminal⟩]⟩,
    ⟨⟨0, .nonterminal⟩, [⟨2, .terminal⟩, ⟨3, .nonterminal⟩]⟩]

/-- The table of `deadEndGrammar`. -/
def deadEndTable : SymbolTable :=
  ⟨[(.nonterminal, "s"), (.terminal, "a"), (.terminal, "b"), (.nonterminal, "t")]⟩

/-- The grammar that is read in place of `deadEndGrammar`, with a terminal for `t`. -/
def deadEndReread : Grammar where
  root := ⟨0, .nonterminal⟩
  rules := FinSet.ofList [⟨⟨0, .nonterminal⟩, [⟨1, .terminal⟩, ⟨0, .nonterminal⟩]⟩,
    ⟨⟨0, .nonterminal⟩, [⟨2, .terminal⟩, ⟨4, .terminal⟩]⟩]

/-- The automaton of `-> s`. -/
def lonely : NFA where
  states := FinSet.ofList ["s"]
  alphabet := ∅
  start := "s"
  finals := ∅
  edges := ∅

/-- A state without edges comes back as a terminal, and of a start without edges nothing is left. -/
theorem deadEnd_not_read_back :
    ((∃ d, ofText "-> s -> a s | b t" = .ok d ∧ d.toNFA = .ok deadEnd) ∧
      (Grammar.ofAutomaton deadEnd).run {} = .ok deadEndGrammar deadEndTable ∧
      deadEndGrammar.render deadEndTable = .ok "s -> a s | b t" ∧
      ∃ later', (Grammar.ofText "s -> a s | b t").run deadEndTable = .ok deadEndReread later' ∧
      deadEndReread ≠ deadEndGrammar) ∧
    (∃ d, ofText "-> s" = .ok d ∧ d.toNFA = .ok lonely) ∧
      ∃ table', (Grammar.ofAutomaton lonely).run {} = .ok ⟨⟨0, .nonterminal⟩, ∅⟩ table' ∧
      Grammar.render ⟨⟨0, .nonterminal⟩, ∅⟩ table' = .ok "" ∧
      (Grammar.ofText "").run table' = .error .missingStart table' := by
  have hdead : ofText "-> s -> a s | b t" = .ok (empty.addAll
      [.start "s", .state "s", .edge ⟨"s", 'a', "s"⟩, .edge ⟨"s", 'b', "t"⟩]) := by cbv
  have hderived : (Grammar.ofAutomaton deadEnd).run {} = .ok deadEndGrammar deadEndTable := by cbv
  have hreread : (Grammar.ofText "s -> a s | b t").run deadEndTable = .ok deadEndReread
      ⟨deadEndTable.entries ++ [(.terminal, "t")]⟩ := by cbv
  have hlonely : ofText "-> s" = .ok (empty.addAll [.start "s", .state "s"]) := by cbv
  have hnone : (Grammar.ofAutomaton lonely).run {} =
      .ok ⟨⟨0, .nonterminal⟩, ∅⟩ ⟨[(.nonterminal, "s")]⟩ := by cbv
  constructor
  · exact ⟨⟨_, hdead, rfl⟩, hderived, by cbv, _, hreread, by decide⟩
  · exact ⟨⟨_, hlonely, rfl⟩, _, hnone, by cbv, by cbv⟩

end Description

end Automata
