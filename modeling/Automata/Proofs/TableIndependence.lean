import Automata.Proofs.GrammarFormat
import Automata.Proofs.GrammarLanguage
import Mathlib

/-!
# What a text means does not depend on the table

Whatever a table was asked for before decides about the numbers of the symbols that it hands out.
The numbers decide in which order the rules of a grammar are listed, and with them the statements
about its automaton, and whether two symbols share a name does not matter unless their kinds are the
same.  None of this can be seen in the end: a text is read, or refused, on every table alike, and
so is the automaton of the grammar that is read.

## What is here

* `WrittenGrammar.nonterminals`, `Grammar.StandsFor.mapM_nameOf` — the names of the nonterminals,
  which are the states of the automaton.
* `Grammar.RuleSays.transfer` — rules of two tables that stand for the same say the same.
* `Grammar.StandsFor.toNFA_eq_ok` — **grammars of two tables that stand for the same have the same
  automaton.**
* `Grammar.run_ofText_cases` — a text is refused on all tables, for one reason, or stands for one
  written grammar on all of them.
* `Grammar.ofText_ignores_table` — **what a text means does not depend on the table.**
-/

set_option autoImplicit false

namespace Automata

/-! ## Symbols of two tables -/

namespace SymbolTable.StandsFor

variable {table table' : SymbolTable} {s s' : Symbol} {l l' : Label}

/-- A symbol stands for one label only. -/
theorem label_eq (h : table.StandsFor s l) (h' : table.StandsFor s l') : l = l' :=
  Option.some_inj.1 (h.2.symm.trans h'.2)

theorem nameOf_eq (h : table.StandsFor s l) (h' : table'.StandsFor s' l) :
    table.nameOf s = table'.nameOf s' := h.nameOf.trans h'.nameOf.symm

theorem isTerminal_eq (h : table.StandsFor s l) (h' : table'.StandsFor s' l) :
    s.isTerminal = s'.isTerminal := by
  rw [Symbol.isTerminal, Symbol.isTerminal, h.1, h'.1]

theorem isNonterminal_eq (h : table.StandsFor s l) (h' : table'.StandsFor s' l) :
    s.isNonterminal = s'.isNonterminal := by
  rw [Symbol.isNonterminal, Symbol.isNonterminal, h.1, h'.1]

end SymbolTable.StandsFor

/-- The nonterminals that a grammar is written with. -/
def WrittenGrammar.nonterminals (w : WrittenGrammar) : Set Label :=
  { l | l = w.root ∨ (∃ n ∈ w.rules, l = n.left) ∨ ∃ n ∈ w.rules, l ∈ n.right ∧ l.1 = .nonterminal }

namespace Grammar

variable {table table' : SymbolTable} {g g' : Grammar} {w : WrittenGrammar} {r r' : Rule}
  {n : WrittenRule} {s root root' : Symbol} {l : Label} {accept q : State} {A : NFA}
  {statements : List Statement}

/-! ## States -/

/-- Every nonterminal of the grammar stands for one that the grammar is written with. -/
theorem StandsFor.exists_label (h : g.StandsFor table w) (hs : s ∈ g.nonterminals) :
    ∃ l ∈ w.nonterminals, table.StandsFor s l := by
  rcases mem_nonterminals.1 hs with rfl | ⟨r, hr, rfl⟩ | ⟨r, hr, hright, hkind⟩
  · exact ⟨w.root, .inl rfl, h.root⟩
  · obtain ⟨n, hn, hrn⟩ := h.rule r hr
    exact ⟨n.left, .inr (.inl ⟨n, hn, rfl⟩), hrn.left⟩
  · obtain ⟨n, hn, hrn⟩ := h.rule r hr
    obtain ⟨l, hl, hsl⟩ := exists_right_of_forall₂ hrn.right hright
    exact ⟨l, .inr (.inr ⟨n, hn, hl, hsl.1.symm.trans (Symbol.isNonterminal_iff.1 hkind)⟩), hsl⟩

/-- Every nonterminal that the grammar is written with has its symbol. -/
theorem StandsFor.exists_symbol (h : g.StandsFor table w) (hl : l ∈ w.nonterminals) :
    ∃ s, s ∈ g.nonterminals ∧ table.StandsFor s l := by
  rcases hl with rfl | ⟨n, hn, rfl⟩ | ⟨n, hn, hl, hkind⟩
  · exact ⟨g.root, mem_nonterminals.2 (.inl rfl), h.root⟩
  · obtain ⟨r, hr, hrn⟩ := h.written n hn
    exact ⟨r.left, left_mem_nonterminals hr, hrn.left⟩
  · obtain ⟨r, hr, hrn⟩ := h.written n hn
    obtain ⟨s, hs, hsl⟩ := exists_left_of_forall₂ hrn.right hl
    exact ⟨s, right_mem_nonterminals hr hs (Symbol.isNonterminal_iff.2 (hsl.1.trans hkind)), hsl⟩

/-- The names of the nonterminals are those that the grammar is written with. -/
theorem StandsFor.mapM_nameOf (h : g.StandsFor table w) :
    ∃ states, g.nonterminals.toList.mapM table.nameOf = .ok states ∧
      ∀ q, q ∈ states ↔ ∃ l ∈ w.nonterminals, l.2 = q := by
  have hall : ∀ s ∈ g.nonterminals.toList, ∃ q, table.nameOf s = .ok q := by
    intro s hs
    obtain ⟨l, _, hsl⟩ := h.exists_label hs
    exact ⟨l.2, hsl.nameOf⟩
  obtain ⟨states, hstates⟩ := exists_mapM_eq_ok hall
  refine ⟨states, hstates, fun q => ?_⟩
  rw [mem_of_mapM_eq_ok hstates]
  refine ⟨?_, ?_⟩
  · rintro ⟨s, hs, hname⟩
    obtain ⟨l, hl, hsl⟩ := h.exists_label hs
    rw [hsl.nameOf, Except.ok.injEq] at hname
    exact ⟨l, hl, hname⟩
  · rintro ⟨l, hl, rfl⟩
    obtain ⟨s, hs, hsl⟩ := h.exists_symbol hl
    exact ⟨s, hs, hsl.nameOf⟩

/-! ## Statements -/

/-- **Rules of two tables that stand for the same say the same.** -/
theorem RuleSays.transfer (ht' : table'.entries.Nodup) (hroot : table.StandsFor root l)
    (hroot' : table'.StandsFor root' l) (hr : r.StandsFor table n) (hr' : r'.StandsFor table' n)
    (h : RuleSays table root accept r statements) :
    RuleSays table' root' accept r' statements := by
  obtain ⟨left', right'⟩ := r'
  obtain ⟨left, right⟩ := n
  obtain ⟨hleft', hright'⟩ := hr'
  cases h with
  | empty hname =>
    obtain ⟨hleft, hright⟩ := hr
    cases hright
    cases hright'
    -- the empty alternative is the root's on both sides
    obtain rfl : l = left := hroot.label_eq hleft
    obtain rfl : root' = left' := hroot'.eq ht' hleft'
    exact .empty (hroot.nameOf_eq hroot' ▸ hname)
  | last hname hterminal ha =>
    obtain ⟨hleft, _ | ⟨hsymbol, ⟨⟩⟩⟩ := hr
    obtain _ | ⟨hsymbol', ⟨⟩⟩ := hright'
    exact .last (hleft.nameOf_eq hleft' ▸ hname) (hsymbol.isTerminal_eq hsymbol' ▸ hterminal)
      (hsymbol.nameOf_eq hsymbol' ▸ ha)
  | next hname hterminal ha hkind hp =>
    obtain ⟨hleft, _ | ⟨hsymbol, _ | ⟨hnext, ⟨⟩⟩⟩⟩ := hr
    obtain _ | ⟨hsymbol', _ | ⟨hnext', ⟨⟩⟩⟩ := hright'
    exact .next (hleft.nameOf_eq hleft' ▸ hname) (hsymbol.isTerminal_eq hsymbol' ▸ hterminal)
      (hsymbol.nameOf_eq hsymbol' ▸ ha) (hnext.isNonterminal_eq hnext' ▸ hkind)
      (hnext.nameOf_eq hnext' ▸ hp)

/-- For every rule of one table there is a rule of the other that stands for the same. -/
theorem StandsFor.exists_alike (h : g.StandsFor table w) (h' : g'.StandsFor table' w)
    (hr : r ∈ g.rules) :
    ∃ r' n, r' ∈ g'.rules ∧ r.StandsFor table n ∧ r'.StandsFor table' n := by
  obtain ⟨n, hn, hrn⟩ := h.rule r hr
  obtain ⟨r', hr', hrn'⟩ := h'.written n hn
  exact ⟨r', n, hr', hrn, hrn'⟩

/-- If every rule of one table says something, so does every rule of the other. -/
theorem StandsFor.exists_said (ht' : table'.entries.Nodup) (h : g.StandsFor table w)
    (h' : g'.StandsFor table' w) {said : List (List Statement)}
    (hsaid : g.rules.toList.mapM (statementsOfRule table g.root accept) = .ok said) :
    ∃ said', g'.rules.toList.mapM (statementsOfRule table' g'.root accept) = .ok said' := by
  refine exists_mapM_eq_ok fun r' hr' => ?_
  obtain ⟨r, n, hr, hrn', hrn⟩ := h'.exists_alike h hr'
  obtain ⟨statements, _, hok⟩ := exists_of_mapM_eq_ok hsaid hr
  have hrule := statementsOfRule_eq_ok_iff.1 hok
  exact ⟨statements, statementsOfRule_eq_ok_iff.2 (hrule.transfer ht' h.root h'.root hrn hrn')⟩

/-- What is said about one grammar is said about the other, if not in the same order. -/
theorem StandsFor.mem_said (ht' : table'.entries.Nodup) (h : g.StandsFor table w)
    (h' : g'.StandsFor table' w) {said said' : List (List Statement)}
    (hsaid : g.rules.toList.mapM (statementsOfRule table g.root accept) = .ok said)
    (hsaid' : g'.rules.toList.mapM (statementsOfRule table' g'.root accept) = .ok said') :
    ∀ statements ∈ said, statements ∈ said' := by
  intro statements hmem
  obtain ⟨r, hr, hok⟩ := (mem_of_mapM_eq_ok hsaid).1 hmem
  obtain ⟨r', n, hr', hrn, hrn'⟩ := h.exists_alike h' hr
  have hrule := statementsOfRule_eq_ok_iff.1 hok
  exact (mem_of_mapM_eq_ok hsaid').2 ⟨r', hr',
    statementsOfRule_eq_ok_iff.2 (hrule.transfer ht' h.root h'.root hrn hrn')⟩

/-! ## Automata -/

/-- **Grammars of two tables that stand for the same have the same automaton**, if they have one. -/
theorem StandsFor.toNFA_eq_ok (ht : table.entries.Nodup) (ht' : table'.entries.Nodup)
    (h : g.StandsFor table w) (h' : g'.StandsFor table' w) (hok : g.toNFA table = .ok A) :
    g'.toNFA table' = .ok A := by
  obtain ⟨states, hstates, hrest⟩ := bind_eq_ok_iff.1 hok
  obtain ⟨start, hstart, hrest⟩ := bind_eq_ok_iff.1 hrest
  obtain ⟨said, hsaid, hdescribed⟩ := bind_eq_ok_iff.1 hrest
  -- the same states, maybe in another order, so the additional final state has the same name
  obtain ⟨states', hstates', hmem'⟩ := h'.mapM_nameOf
  have hmem : ∀ q, q ∈ states ↔ q ∈ states' := by
    obtain ⟨_, hagain, hmem⟩ := h.mapM_nameOf
    cases hstates.symm.trans hagain
    exact fun q => (hmem q).trans (hmem' q).symm
  have haccept : unused states "FIN" = unused states' "FIN" := unused_congr hmem "FIN"
  rw [haccept] at hsaid
  -- the same statements, in another order as well
  obtain ⟨said', hsaid'⟩ := h.exists_said ht' h' hsaid
  have hflat : ∀ s, s ∈ said.flatten ↔ s ∈ said'.flatten := by
    have hsame : ∀ statements, statements ∈ said ↔ statements ∈ said' := fun statements =>
      ⟨h.mem_said ht' h' hsaid hsaid' statements, h'.mem_said ht h hsaid' hsaid statements⟩
    simp only [List.mem_flatten, hsame, implies_true]
  have hfirst : (Description.empty.addAll (.start start :: states.map .state ++
      said.flatten)).start = some start := Description.start_addAll (start_not_mem_said hsaid)
  have hfirst' : (Description.empty.addAll (.start start :: states'.map .state ++
      said'.flatten)).start = some start := Description.start_addAll (start_not_mem_said hsaid')
  have hall : ∀ s, s ∈ .start start :: states.map .state ++ said.flatten ↔
      s ∈ .start start :: states'.map .state ++ said'.flatten := by
    simp only [List.cons_append, List.mem_cons, List.mem_append, List.mem_map, hmem, hflat,
      implies_true]
  refine bind_eq_ok_iff.2 ⟨states', hstates', bind_eq_ok_iff.2 ⟨start, ?_,
    bind_eq_ok_iff.2 ⟨said', hsaid', ?_⟩⟩⟩
  · exact (h.root.nameOf_eq h'.root).symm.trans hstart
  · exact Description.addAll_congr (hfirst.trans hfirst'.symm) hall ▸ hdescribed

/-! ## Texts -/

/-- **A text is refused on all tables, for one reason**, or stands for one written grammar on all of
them. -/
theorem run_ofText_cases (text : String) :
    (∃ e, ∀ table, (ofText text).run table = .error e table) ∨
    ∃ w, ∀ table, ∃ g table', (ofText text).run table = .ok g table' ∧ table.Grows table' ∧
      ∀ later, table'.Grows later → g.StandsFor later w := by
  cases hlines : ruleLinesOfText 1 (Text.lines text.toList) with
  | error e =>
    refine .inl ⟨e, fun table => ?_⟩
    rw [ofText, hlines]
    rfl
  | ok heads =>
    have hheads := heads_of_ruleLinesOfText hlines
    cases heads with
    | nil =>
      refine .inl ⟨.missingStart, fun table => ?_⟩
      rw [ofText, hlines]
      rfl
    | cons first heads =>
      refine .inr ⟨writtenGrammar first heads, fun table => ?_⟩
      obtain ⟨g, table', hrun, hgrows, _, hg⟩ := obtains_ofText hheads table
      exact ⟨g, table', hrun, hgrows, hg⟩

/-- **What a text means does not depend on the table.**  On any two tables the same texts are
refused, for the same reason.  The grammars of a text that is read may differ in the numbers of
their symbols and in the order of their rules, but not in their automaton, nor in whether they have
one, and it does not matter what the tables are asked for later. -/
theorem ofText_ignores_table (text : String) {p q : SymbolTable} (hp : p.Obtainable)
    (hq : q.Obtainable) :
    (∀ e, (∃ p', (ofText text).run p = .error e p') ↔ ∃ q', (ofText text).run q = .error e q') ∧
    ∀ g g' p' q', (ofText text).run p = .ok g p' → (ofText text).run q = .ok g' q' →
      ∀ later later', p'.Grows later → q'.Grows later' →
        ∀ A, g.toNFA later = .ok A ↔ g'.toNFA later' = .ok A := by
  rcases run_ofText_cases text with ⟨e, hrefused⟩ | ⟨w, hread⟩
  · refine ⟨fun e' => ?_, fun g g' p' q' hrun => ?_⟩
    · simp only [hrefused, EStateM.Result.error.injEq, exists_and_left, exists_eq']
    · rw [hrefused] at hrun
      cases hrun
  · obtain ⟨g₁, p₁, hrun₁, hpgrows, hg₁⟩ := hread p
    obtain ⟨g₂, q₁, hrun₂, hqgrows, hg₂⟩ := hread q
    refine ⟨fun e => ?_, fun g g' p' q' hrun hrun' later later' hlater hlater' A => ?_⟩
    · simp only [hrun₁, hrun₂, reduceCtorEq, exists_false]
    · cases hrun₁.symm.trans hrun
      cases hrun₂.symm.trans hrun'
      have hl := ((hp.grows hpgrows).grows hlater).nodup
      have hl' := ((hq.grows hqgrows).grows hlater').nodup
      exact ⟨(hg₁ later hlater).toNFA_eq_ok hl hl' (hg₂ later' hlater'),
        (hg₂ later' hlater').toNFA_eq_ok hl' hl (hg₁ later hlater)⟩

/-- A text with a nonterminal that is called like the additional final state of an automaton. -/
def twoStates : String := "S -> a FIN | b | eps\nFIN -> a S | b"

/-- A table in which the names of `twoStates` are taken, two of them by the other kind. -/
def takenTable : SymbolTable := ⟨[(.terminal, "FIN"), (.nonterminal, "a"), (.nonterminal, "FIN")]⟩

/-- The grammar of `twoStates` on a table that holds nothing else. -/
def twoStatesFirst : Grammar where
  root := ⟨0, .nonterminal⟩
  rules := FinSet.ofList [⟨⟨0, .nonterminal⟩, []⟩,
    ⟨⟨0, .nonterminal⟩, [⟨1, .terminal⟩, ⟨2, .nonterminal⟩]⟩, ⟨⟨0, .nonterminal⟩, [⟨3, .terminal⟩]⟩,
    ⟨⟨2, .nonterminal⟩, [⟨1, .terminal⟩, ⟨0, .nonterminal⟩]⟩, ⟨⟨2, .nonterminal⟩, [⟨3, .terminal⟩]⟩]

/-- The grammar of `twoStates` on `takenTable`: the rules of the root come last. -/
def twoStatesLast : Grammar where
  root := ⟨3, .nonterminal⟩
  rules := FinSet.ofList [⟨⟨2, .nonterminal⟩, [⟨4, .terminal⟩, ⟨3, .nonterminal⟩]⟩,
    ⟨⟨2, .nonterminal⟩, [⟨5, .terminal⟩]⟩, ⟨⟨3, .nonterminal⟩, []⟩,
    ⟨⟨3, .nonterminal⟩, [⟨4, .terminal⟩, ⟨2, .nonterminal⟩]⟩, ⟨⟨3, .nonterminal⟩, [⟨5, .terminal⟩]⟩]

/-- The automaton of `twoStates`. -/
def twoStatesAutomaton : NFA where
  states := FinSet.ofList ["FIN", "FIN'", "S"]
  alphabet := FinSet.ofList ['a', 'b']
  start := "S"
  finals := FinSet.ofList ["FIN'", "S"]
  edges := FinSet.ofList
    [⟨"FIN", 'a', "S"⟩, ⟨"FIN", 'b', "FIN'"⟩, ⟨"S", 'a', "FIN"⟩, ⟨"S", 'b', "FIN'"⟩]

theorem obtainable_takenTable : takenTable.Obtainable :=
  .tail (.tail (.tail .refl ⟨.terminal, "FIN", ⟨0, .terminal⟩, by cbv⟩)
    ⟨.nonterminal, "a", ⟨1, .nonterminal⟩, by cbv⟩) ⟨.nonterminal, "FIN", ⟨2, .nonterminal⟩, by cbv⟩

theorem twoStates_ignores_table :
    takenTable.Obtainable ∧ ∃ p' q', (ofText twoStates).run {} = .ok twoStatesFirst p' ∧
      (ofText twoStates).run takenTable = .ok twoStatesLast q' ∧
      twoStatesFirst.toNFA p' = .ok twoStatesAutomaton ∧
      twoStatesLast.toNFA q' = .ok twoStatesAutomaton := by
  have hrun : (ofText twoStates).run {} = .ok twoStatesFirst
      ⟨[(.nonterminal, "S"), (.terminal, "a"), (.nonterminal, "FIN"), (.terminal, "b")]⟩ := by cbv
  have hrun' : (ofText twoStates).run takenTable = .ok twoStatesLast
      ⟨[(.terminal, "FIN"), (.nonterminal, "a"), (.nonterminal, "FIN"), (.nonterminal, "S"),
        (.terminal, "a"), (.terminal, "b")]⟩ := by cbv
  have hok : twoStatesFirst.toNFA
      ⟨[(.nonterminal, "S"), (.terminal, "a"), (.nonterminal, "FIN"), (.terminal, "b")]⟩ =
        .ok twoStatesAutomaton := by cbv
  have hignores := (ofText_ignores_table twoStates .refl obtainable_takenTable).2
  exact ⟨obtainable_takenTable, _, _, hrun, hrun', hok,
    (hignores _ _ _ _ hrun hrun' _ _ .refl .refl _).1 hok⟩

end Grammar

end Automata
