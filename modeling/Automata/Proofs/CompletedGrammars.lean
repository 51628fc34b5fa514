import Automata.Proofs.GrammarPrinting
import Automata.Proofs.GrammarRoundTrip
import Mathlib

/-!
# From a grammar to its automaton and back

The automaton of a grammar keeps the rules `A -> t B` as edges, and reads the last character of a
rule `A -> t` on an edge to its additional final state.  Final states leave no trace in the grammar
of an automaton, so on the way back the additional final state is a nonterminal like any other, and
the empty alternative is gone.  Nothing else changes: names that the table knows lead back to the
symbols that they were taken from, and the additional final state has a name that no nonterminal of
the grammar has.

## What is here

* `Rule.complete`, `Grammar.complete` — a nonterminal behind every terminal that comes last, and no
  empty alternatives.
* `SymbolTable.Obtainable.name_ne_empty` — every name in a table can be asked for again.
* `Grammar.Follows.complete_standsFor` — the completed grammar stands for the grammar of the
  automaton.
* `Grammar.size_complete` — completing keeps the rules apart, and drops one at most.
* `Grammar.Obtainable.automaton_and_back` — **the automaton of a grammar leads back to the completed
  grammar.**
-/

set_option autoImplicit false

namespace Automata

/-- The rule with `F` behind its terminal, if that comes last. -/
def Rule.complete (F : Symbol) (r : Rule) : Rule :=
  match r.right with
  | [t] => ⟨r.left, [t, F]⟩
  | _ => r

/-- The grammar without empty alternatives, and with `F` behind every terminal that comes last. -/
def Grammar.complete (F : Symbol) (g : Grammar) : Grammar where
  root := g.root
  rules := (g.rules.filter fun r => !r.right.isEmpty).map (Rule.complete F)

section Sets

open Std

variable {α β : Type} [Ord α] [Ord β] [TransOrd α] [TransOrd β] [LawfulEqOrd β]

/-- A map that keeps the members of a set apart keeps their number. -/
theorem FinSet.size_map_of_injOn {s : FinSet α} {f : α → β}
    (h : ∀ a, a ∈ s → ∀ b, b ∈ s → f a = f b → a = b) : (s.map f).size = s.size := by
  have hnodup : (s.toList.map f).Nodup := s.nodup.map_on h
  rw [← length_eq_size hnodup fun b => by rw [List.mem_map, mem_map]; rfl, List.length_map]
  rfl

/-- There is one member more than those that are not `a`. -/
theorem FinSet.size_filter_add_one [DecidableEq α] {s : FinSet α} {a : α} {p : α → Bool}
    (ha : a ∈ s) (hp : ∀ b, b ∈ s → (p b = false ↔ b = a)) : (s.filter p).size + 1 = s.size := by
  have hnotMem : a ∉ (s.filter p).toList := by
    rw [mem_toList, mem_filter, (hp a ha).2 rfl]
    rintro ⟨_, ⟨⟩⟩
  refine length_eq_size (l := a :: (s.filter p).toList) (List.nodup_cons.2 ⟨hnotMem, nodup _⟩) ?_
  intro b
  rw [List.mem_cons, mem_toList, mem_filter]
  constructor
  · rintro (rfl | ⟨hb, _⟩)
    · exact ha
    · exact hb
  · intro hb
    cases hpb : p b with
    | false => exact .inl ((hp b hb).1 hpb)
    | true => exact .inr ⟨hb, rfl⟩

end Sets

/-! ## Names -/

section Names

variable {t t' : SymbolTable} {l : Label}

theorem unused_ne_empty (taken : List String) {name : String} (h : name ≠ "") :
    unused taken name ≠ "" := by
  fun_induction unused taken name with
  | case1 name _ ih => exact ih String.push_ne_empty
  | case2 name _ => exact h

theorem SymbolTable.Asked.name_ne_empty (h : t.Asked t') (ht : ∀ l ∈ t.entries, l.2 ≠ "") :
    ∀ l ∈ t'.entries, l.2 ≠ "" := by
  obtain ⟨kind, name, s, hrun⟩ := h
  rcases (intern_cases hrun).2.2 with rfl | ⟨_, hentries⟩
  · exact ht
  · rw [hentries]
    intro l hl
    rcases List.mem_append.1 hl with hl | hl
    · exact ht l hl
    · rintro hempty
      obtain rfl := List.mem_singleton.1 hl
      obtain rfl : name = "" := hempty
      cases (run_intern kind "" t).symm.trans hrun

/-- **Every name in a table can be asked for again.** -/
theorem SymbolTable.Obtainable.name_ne_empty (ht : t.Obtainable) : ∀ l ∈ t.entries, l.2 ≠ "" := by
  induction ht with
  | refl => exact fun l hl => absurd hl List.not_mem_nil
  | tail _ hasked ih => exact hasked.name_ne_empty ih

/-- A symbol of the table stands for its kind and its name. -/
theorem SymbolTable.Has.standsFor {s : Symbol} {name : String} (hs : t.Has s)
    (hname : t.nameOf s = .ok name) : t.StandsFor s (s.kind, name) :=
  ⟨rfl, (nameOf_eq_ok_iff hs).1 hname⟩

end Names

/-! ## Rules -/

namespace Rule

variable {F : Symbol} {r r' : Rule}

/-- A rule is completed if a terminal is all that is on its right, and otherwise stays as it is. -/
theorem complete_cases (F : Symbol) (r : Rule) :
    (∃ t, r.right = [t] ∧ r.complete F = ⟨r.left, [t, F]⟩) ∨ r.complete F = r := by
  rw [complete]
  split
  · rename_i t ht
    exact .inl ⟨t, ht, rfl⟩
  · exact .inr rfl

/-- Rules in which `F` does not occur are kept apart. -/
theorem complete_inj (h : F ∉ r.right) (h' : F ∉ r'.right)
    (heq : r.complete F = r'.complete F) : r = r' := by
  have hF : ∀ t : Symbol, F ∈ [t, F] := fun _ => List.mem_cons_of_mem _ List.mem_cons_self
  rcases complete_cases F r with ⟨t, ht, hr⟩ | hr
  · rcases complete_cases F r' with ⟨t', ht', hr'⟩ | hr'
    · rw [hr, hr', mk.injEq, List.cons.injEq] at heq
      obtain ⟨hleft, rfl, _⟩ := heq
      cases r
      cases r'
      exact congrArg₂ mk hleft (ht.trans ht'.symm)
    · rw [hr, hr'] at heq
      exact absurd (heq ▸ hF t) h'
  · rcases complete_cases F r' with ⟨t', ht', hr'⟩ | hr'
    · rw [hr, hr'] at heq
      exact absurd (heq ▸ hF t') h
    · exact hr.symm.trans (heq.trans hr')

end Rule

namespace Grammar

variable {g : Grammar} {table table' : SymbolTable} {root F n : Symbol} {accept : State} {r : Rule}
  {A : NFA} {e : Edge} {statements : List Statement}

/-! ## The completed grammar -/

theorem mem_complete : r ∈ (g.complete F).rules ↔
    ∃ r', r' ∈ g.rules ∧ r'.right ≠ [] ∧ r'.complete F = r := by
  rw [complete, FinSet.mem_map]
  simp only [FinSet.mem_filter, Bool.not_eq_true', List.isEmpty_eq_false_iff, and_assoc]

/-- A nonterminal stands for its name. -/
theorem WellFormed.standsFor (hg : g.WellFormed table) (hn : n ∈ g.nonterminals) {name : State}
    (hname : table.nameOf n = .ok name) : table.StandsFor n (.nonterminal, name) := by
  obtain ⟨hhas, hkind⟩ := hg.hasNonterminal hn
  exact hkind ▸ hhas.standsFor hname

/-- Of a rule that an automaton can follow, the completed rule stands for the edge. -/
theorem RuleSays.complete_standsFor (h : RuleSays table root accept r statements)
    (hr : r.WellFormed table) (hgrows : table.Grows table')
    (hF : (∃ t, r.right = [t]) → table'.StandsFor F (.nonterminal, accept))
    (he : .edge e ∈ statements) : r.right ≠ [] ∧ (r.complete F).StandsFor table' e.written := by
  have hsymbol : ∀ {s : Symbol} {kind : SymbolKind} {name : String}, table.Has s → s.kind = kind →
      table.nameOf s = .ok name → table'.StandsFor s (kind, name) :=
    fun hs hkind hname => hkind ▸ (hs.standsFor hname).grows hgrows
  obtain ⟨hleft, hright⟩ := hr
  cases h with
  | empty => cases List.mem_singleton.1 he
  | @last n t q a hn ht ha =>
    obtain ⟨⟩ := (List.mem_pair.1 he).resolve_left Statement.noConfusion
    have hs := hsymbol (hright t List.mem_cons_self) (Symbol.isTerminal_iff.1 ht) ha
    exact ⟨List.cons_ne_nil _ _, hsymbol hleft.1 hleft.2 hn, .cons hs (.cons (hF ⟨t, rfl⟩) .nil)⟩
  | @next n t m q p a hn ht ha hm hp =>
    cases List.mem_singleton.1 he
    have hs := hsymbol (hright t List.mem_cons_self) (Symbol.isTerminal_iff.1 ht) ha
    have hs' := hsymbol (hright m (List.mem_cons_of_mem _ List.mem_cons_self))
      (Symbol.isNonterminal_iff.1 hm) hp
    exact ⟨List.cons_ne_nil _ _, hsymbol hleft.1 hleft.2 hn, .cons hs (.cons hs' .nil)⟩

/-- A rule that is not empty says that there is an edge. -/
theorem RuleSays.exists_edge (h : RuleSays table root accept r statements) (hne : r.right ≠ []) :
    ∃ e, .edge e ∈ statements := by
  cases h with
  | empty => exact absurd rfl hne
  | last => exact ⟨_, List.mem_pair.2 (.inr rfl)⟩
  | next => exact ⟨_, List.mem_singleton.2 rfl⟩

/-- **The completed grammar stands for the grammar of the automaton**, if what comes behind the
terminals stands for the additional final state. -/
theorem Follows.complete_standsFor (hg : g.WellFormed table) (h : g.Follows table accept A)
    (hgrows : table.Grows table')
    (hF : (∃ n t, (⟨n, [t]⟩ : Rule) ∈ g.rules) → table'.StandsFor F (.nonterminal, accept)) :
    (g.complete F).StandsFor table' A.written := by
  have hlast : ∀ {r}, r ∈ g.rules → (∃ t, r.right = [t]) →
      table'.StandsFor F (.nonterminal, accept) := by
    rintro ⟨n, _⟩ hr ⟨t, rfl⟩
    exact hF ⟨n, t, hr⟩
  refine ⟨(hg.standsFor (mem_nonterminals.2 (.inl rfl)) h.start_eq).grows hgrows, ?_, ?_⟩
  · intro r' hr'
    obtain ⟨r, hr, hne, rfl⟩ := mem_complete.1 hr'
    obtain ⟨statements, hsays⟩ := h.readable r hr
    obtain ⟨e, he⟩ := hsays.exists_edge hne
    have hstands := hsays.complete_standsFor (hg.rules_wellFormed r hr) hgrows (hlast hr) he
    exact ⟨e.written, ⟨e, (h.mem_edges e).2 ⟨r, statements, hr, hsays, he⟩, rfl⟩, hstands.2⟩
  · rintro _ ⟨e, he, rfl⟩
    obtain ⟨r, statements, hr, hsays, hmem⟩ := (h.mem_edges e).1 he
    have hstands := hsays.complete_standsFor (hg.rules_wellFormed r hr) hgrows (hlast hr) hmem
    exact ⟨r.complete F, mem_complete.2 ⟨r, hr, hstands.1, rfl⟩, hstands.2⟩

/-! ## The number of rules -/

theorem hasEmptyAlternative_iff {s : Symbol} :
    g.hasEmptyAlternative s = true ↔ (⟨s, []⟩ : Rule) ∈ g.rules := by
  rw [hasEmptyAlternative, List.any_eq_true, ← mem_alternatives]
  simp only [List.isEmpty_iff, exists_eq_right]

/-- **The completed grammar has as many rules**, but for the empty alternative of the root. -/
theorem size_complete (hkind : F.kind = .nonterminal) (hF : F ∉ g.nonterminals)
    (hempty : ∀ n, (⟨n, []⟩ : Rule) ∈ g.rules → n = g.root) :
    (g.complete F).size + (if g.hasEmptyAlternative g.root then 1 else 0) = g.size := by
  have hright : ∀ r, r ∈ g.rules → F ∉ r.right := fun r hr hmem =>
    hF (right_mem_nonterminals hr hmem (Symbol.isNonterminal_iff.2 hkind))
  have hsize : (g.complete F).size = (g.rules.filter fun r => !r.right.isEmpty).size := by
    refine FinSet.size_map_of_injOn fun r hr r' hr' => Rule.complete_inj ?_ ?_
    · exact hright r (FinSet.mem_filter.1 hr).1
    · exact hright r' (FinSet.mem_filter.1 hr').1
  rw [hsize]
  split
  · rename_i hroot
    refine FinSet.size_filter_add_one (hasEmptyAlternative_iff.1 hroot) fun r hr => ?_
    rw [Bool.not_eq_false', List.isEmpty_iff]
    constructor
    · obtain ⟨n, right⟩ := r
      rintro rfl
      rw [hempty n hr]
    · rintro rfl
      rfl
  · rename_i hroot
    have hall : (g.rules.filter fun r => !r.right.isEmpty) = g.rules := by
      refine FinSet.ext fun r => FinSet.mem_filter.trans (and_iff_left_of_imp fun hr => ?_)
      rw [Bool.not_eq_true', List.isEmpty_eq_false_iff]
      obtain ⟨n, right⟩ := r
      rintro rfl
      exact hroot (hasEmptyAlternative_iff.2 (hempty n hr ▸ hr))
    rw [hall, Nat.add_zero, size]

/-! ## And back -/

/-- The states of the automaton of a grammar have names. -/
theorem Obtainable.empty_not_mem_skeleton (hg : g.Obtainable table)
    (h : g.Follows table accept A) (haccept : accept ≠ "") : "" ∉ A.skeleton.states := by
  obtain ⟨ht, hg⟩ := hg.wellFormed
  have hname : ∀ {s : Symbol} {q : State}, table.Has s → table.nameOf s = .ok q → q ≠ "" :=
    fun hs hq => ht.name_ne_empty _ (hs.standsFor hq).mem_entries
  refine NFA.empty_not_mem_skeleton (hname hg.root_mem.1 h.start_eq) fun e he => ?_
  obtain ⟨r, statements, hr, hsays, hmem⟩ := (h.mem_edges e).1 he
  obtain ⟨hleft, hright⟩ := hg.rules_wellFormed r hr
  cases hsays with
  | empty => cases List.mem_singleton.1 hmem
  | last hn =>
    obtain ⟨⟩ := (List.mem_pair.1 hmem).resolve_left Statement.noConfusion
    exact ⟨hname hleft.1 hn, haccept⟩
  | @next n t m q p a hn ht ha hm hp =>
    cases List.mem_singleton.1 hmem
    have hm := hright m (List.mem_cons_of_mem _ List.mem_cons_self)
    exact ⟨hname hleft.1 hn, hname hm hp⟩

/-- The empty alternative is the root's. -/
theorem Follows.eq_root_of_empty (h : g.Follows table accept A)
    (hr : (⟨n, []⟩ : Rule) ∈ g.rules) : n = g.root := by
  obtain ⟨statements, hsays⟩ := h.readable _ hr
  cases hsays
  rfl

/-- Whatever has the name of the additional final state is none of the nonterminals. -/
theorem Follows.not_mem_of_standsFor (hg : g.WellFormed table) (h : g.Follows table accept A)
    (hgrows : table.Grows table') (hF : table'.StandsFor F (.nonterminal, accept)) :
    F ∉ g.nonterminals := by
  intro hmem
  obtain ⟨hhas, _⟩ := hg.hasNonterminal hmem
  obtain ⟨name, hname⟩ := SymbolTable.exists_nameOf hhas
  have hlabel := hF.label_eq ((hg.standsFor hmem hname).grows hgrows)
  obtain rfl : accept = name := congrArg Prod.snd hlabel
  exact h.accept_ne F hmem hname

/-- If the grammar of the automaton is `g'`, there is a nonterminal that the grammar does not have
and that stands for the additional final state, as far as `g'` has that. -/
theorem Follows.exists_last (hg : g.WellFormed table) (h : g.Follows table accept A)
    (hgrows : table.Grows table') {g' : Grammar} (hg' : g'.StandsFor table' A.written) :
    ∃ F : Symbol, F.kind = .nonterminal ∧ F ∉ g.nonterminals ∧
      ((∃ n t, (⟨n, [t]⟩ : Rule) ∈ g.rules) → table'.StandsFor F (.nonterminal, accept)) := by
  by_cases hlast : ∃ n t, (⟨n, [t]⟩ : Rule) ∈ g.rules
  · obtain ⟨n, t, hr⟩ := hlast
    obtain ⟨statements, hsays⟩ := h.readable _ hr
    cases hsays with
    | @last _ _ q a hn ht ha =>
      have he : (⟨q, a, accept⟩ : Edge) ∈ A.edges :=
        (h.mem_edges _).2 ⟨_, _, hr, .last hn ht ha, List.mem_pair.2 (.inr rfl)⟩
      obtain ⟨r, _, hstands⟩ := hg'.written _ ⟨_, he, rfl⟩
      obtain ⟨F, _, hF⟩ := exists_left_of_forall₂ hstands.right
        (List.mem_cons_of_mem _ (List.mem_singleton.2 rfl))
      exact ⟨F, hF.1, h.not_mem_of_standsFor hg hgrows hF, fun _ => hF⟩
  · -- nothing stands for the additional final state, so any other nonterminal will do
    refine ⟨⟨table.size, .nonterminal⟩, rfl, fun hmem => ?_, fun h => absurd h hlast⟩
    obtain ⟨⟨name, hname⟩, _⟩ := hg.hasNonterminal hmem
    exact absurd (List.getElem?_eq_some_iff.1 hname).1 (Nat.lt_irrefl _)

/-- The rules of the completed grammar, by their form. -/
theorem Follows.mem_complete_iff (h : g.Follows table accept A) : r ∈ (g.complete F).rules ↔
    (∃ n t m, (⟨n, [t, m]⟩ : Rule) ∈ g.rules ∧ r = ⟨n, [t, m]⟩) ∨
      ∃ n t, (⟨n, [t]⟩ : Rule) ∈ g.rules ∧ r = ⟨n, [t, F]⟩ := by
  rw [mem_complete]
  constructor
  · rintro ⟨r', hr', hne, rfl⟩
    obtain ⟨statements, hsays⟩ := h.readable r' hr'
    cases hsays with
    | empty => exact absurd rfl hne
    | @last n t => exact .inr ⟨n, t, hr', rfl⟩
    | @next n t m => exact .inl ⟨n, t, m, hr', rfl⟩
  · rintro (⟨n, t, m, hr', rfl⟩ | ⟨n, t, hr', rfl⟩)
    · exact ⟨_, hr', List.cons_ne_nil _ _, rfl⟩
    · exact ⟨_, hr', List.cons_ne_nil _ _, rfl⟩

/-- A grammar that is complete stays as it is. -/
theorem complete_eq_self (hall : ∀ r, r ∈ g.rules → ∃ n t m, r = ⟨n, [t, m]⟩) :
    g.complete F = g := by
  have hrules : (g.complete F).rules = g.rules := by
    refine FinSet.ext fun r => mem_complete.trans ⟨?_, fun hr => ?_⟩
    · rintro ⟨r', hr', _, rfl⟩
      obtain ⟨n, t, m, rfl⟩ := hall r' hr'
      exact hr'
    · obtain ⟨n, t, m, rfl⟩ := hall r hr
      exact ⟨_, hr, List.cons_ne_nil _ _, rfl⟩
  exact congrArg (mk g.root) hrules

/-- **The automaton of a grammar leads back to the completed grammar.**  In the table that the
grammar comes from, the grammar of its automaton has the same root.  Its rules are the rules
`A -> t B` and, with one nonterminal `F` that the grammar does not have, a rule `A -> t F` for every
rule `A -> t`.  So there is one rule less if the root has an empty alternative, and a grammar of
rules `A -> t B` comes back as it was. -/
theorem Obtainable.automaton_and_back (hg : g.Obtainable table) (h : g.toNFA table = .ok A) :
    ∃ g' table' F, (ofAutomaton A).run table = .ok g' table' ∧ table.Grows table' ∧
      g'.root = g.root ∧ F.kind = .nonterminal ∧ F ∉ g.nonterminals ∧
      (∀ r, r ∈ g'.rules ↔
        (∃ n t m, (⟨n, [t, m]⟩ : Rule) ∈ g.rules ∧ r = ⟨n, [t, m]⟩) ∨
          ∃ n t, (⟨n, [t]⟩ : Rule) ∈ g.rules ∧ r = ⟨n, [t, F]⟩) ∧
      g'.size + (if g.hasEmptyAlternative g.root then 1 else 0) = g.size ∧
      ((∀ r, r ∈ g.rules → ∃ n t m, r = ⟨n, [t, m]⟩) → g' = g) := by
  obtain ⟨states, hfollows⟩ := exists_follows_unused h
  obtain ⟨ht, hwell⟩ := hg.wellFormed
  have hnamed := hg.empty_not_mem_skeleton hfollows (unused_ne_empty states (by decide))
  obtain ⟨g', table', hrun, hgrows, _, hstands⟩ := obtains_ofAutomaton hnamed table
  have hg' := hstands table' .refl
  obtain ⟨F, hkind, hnew, hlast⟩ := hfollows.exists_last hwell hgrows hg'
  -- both grammars stand for the edges of the automaton
  obtain rfl : g' = g.complete F :=
    hg'.eq (ht.grows hgrows).nodup (hfollows.complete_standsFor hwell hgrows hlast)
  exact ⟨_, table', F, hrun, hgrows, rfl, hkind, hnew, fun r => hfollows.mem_complete_iff,
    size_complete hkind hnew fun n hn => hfollows.eq_root_of_empty hn, complete_eq_self⟩

/-- A text of which all rules have the form `A -> t B`. -/
def turns : String := "FIN -> a T\nT -> b FIN | b T"

/-- The grammar of `turns`. -/
def turning : Grammar where
  root := ⟨0, .nonterminal⟩
  rules := FinSet.ofList [⟨⟨0, .nonterminal⟩, [⟨1, .terminal⟩, ⟨2, .nonterminal⟩]⟩,
    ⟨⟨2, .nonterminal⟩, [⟨3, .terminal⟩, ⟨0, .nonterminal⟩]⟩,
    ⟨⟨2, .nonterminal⟩, [⟨3, .terminal⟩, ⟨2, .nonterminal⟩]⟩]

/-- The table of `turning`. -/
def turningTable : SymbolTable :=
  ⟨[(.nonterminal, "FIN"), (.terminal, "a"), (.nonterminal, "T"), (.terminal, "b")]⟩

/-- The automaton of `turning`. -/
def turningAutomaton : NFA where
  states := FinSet.ofList ["FIN", "T"]
  alphabet := FinSet.ofList ['a', 'b']
  start := "FIN"
  finals := ∅
  edges := FinSet.ofList [⟨"FIN", 'a', "T"⟩, ⟨"T", 'b', "FIN"⟩, ⟨"T", 'b', "T"⟩]

/-- One grammar loses its empty alternative and gets a nonterminal, the other comes back. -/
theorem crowded_automaton_and_back :
    (crowded.Obtainable crowdedTable ∧ crowded.toNFA crowdedTable = .ok crowdedAutomaton ∧
      ∃ g' table' F, (ofAutomaton crowdedAutomaton).run crowdedTable = .ok g' table' ∧
        F ∉ crowded.nonterminals ∧ (⟨crowded.root, [⟨1, .terminal⟩, F]⟩ : Rule) ∈ g'.rules ∧
        g'.size + 1 = crowded.size) ∧
    turning.Obtainable turningTable ∧ turning.toNFA turningTable = .ok turningAutomaton ∧
      (∀ r, r ∈ turning.rules → ∃ n t m, r = ⟨n, [t, m]⟩) ∧
      ∃ table', (ofAutomaton turningAutomaton).run turningTable = .ok turning table' := by
  have hcrowded : crowded.toNFA crowdedTable = .ok crowdedAutomaton := by cbv
  have hturning : turning.toNFA turningTable = .ok turningAutomaton := by cbv
  have hread : (ofText turns).run {} = .ok turning turningTable := by cbv
  have hobtainable : turning.Obtainable turningTable := .text .refl hread
  have hforms : ∀ r, r ∈ turning.rules → ∃ n t m, r = ⟨n, [t, m]⟩ := by
    intro r hr
    rcases FinSet.mem_ofList.1 hr with _ | ⟨_, _ | ⟨_, _ | ⟨_, ⟨⟩⟩⟩⟩
    · exact ⟨_, _, _, rfl⟩
    · exact ⟨_, _, _, rfl⟩
    · exact ⟨_, _, _, rfl⟩
  refine ⟨⟨obtainable_crowded, hcrowded, ?_⟩, hobtainable, hturning, hforms, ?_⟩
  · obtain ⟨g', table', F, hrun, _, _, _, hF, hrules, hsize, _⟩ :=
      obtainable_crowded.automaton_and_back hcrowded
    refine ⟨g', table', F, hrun, hF, (hrules _).2 (.inr ⟨_, _, ?_, rfl⟩), hsize⟩
    decide
  · obtain ⟨g', table', F, hrun, _, _, _, _, _, _, hback⟩ :=
      hobtainable.automaton_and_back hturning
    exact ⟨table', hback hforms ▸ hrun⟩

end Grammar

end Automata
