import Automata.Grammar.Conversion
import Automata.Grammar.Reader
import Automata.Proofs.Interning

/-!
# Grammars that can be obtained

A symbol means something only together with its table, and so does a grammar.  Grammars are drafted
rule by rule, read from texts or derived from automata, and in each case all of their symbols come
from one table, which may hold other symbols and may grow later.

## What is here

* `Rule.WellFormed`, `Grammar.WellFormed` — the symbols belong to the table, and nonterminals are
  where they should be.
* `Grammar.Draft.Obtainable`, `Grammar.Obtainable` — the drafts and the grammars that the operations
  of the library yield, together with their tables.
* `Grammar.Obtainable.wellFormed` — **whatever can be obtained is well-formed.**
-/

set_option autoImplicit false

namespace Automata

variable {table table' : SymbolTable}

/-- The rule consists of symbols of the table, with a nonterminal on its left. -/
structure Rule.WellFormed (table : SymbolTable) (r : Rule) : Prop where
  left_mem : table.HasNonterminal r.left
  right_mem : ∀ s ∈ r.right, table.Has s

theorem Rule.WellFormed.grows {r : Rule} (hr : r.WellFormed table) (h : table.Grows table') :
    r.WellFormed table' :=
  ⟨hr.left_mem.grows h, fun s hs => (hr.right_mem s hs).grows h⟩

namespace Grammar

/-- The grammar consists of symbols of the table, and its root is a nonterminal. -/
structure WellFormed (table : SymbolTable) (g : Grammar) : Prop where
  root_mem : table.HasNonterminal g.root
  rules_wellFormed : ∀ r, r ∈ g.rules → r.WellFormed table

theorem WellFormed.grows {g : Grammar} (hg : g.WellFormed table) (h : table.Grows table') :
    g.WellFormed table' :=
  ⟨hg.root_mem.grows h, fun r hr => (hg.rules_wellFormed r hr).grows h⟩

/-! ## Drafts -/

namespace Draft

variable {d d' : Draft}

/-- The draft consists of symbols of the table, and its root is a nonterminal. -/
structure WellFormed (table : SymbolTable) (d : Draft) : Prop where
  root_mem : ∀ s, d.root = some s → table.HasNonterminal s
  rules_wellFormed : ∀ r, r ∈ d.rules → r.WellFormed table

/-- The drafts that can be made, each with the table that its symbols come from. -/
inductive Obtainable : SymbolTable → Draft → Prop where
  /-- Nothing is said yet. -/
  | empty {table : SymbolTable} : table.Obtainable → Obtainable table {}
  /-- Symbols are asked for. -/
  | grows {table table' : SymbolTable} {d : Draft} :
      Obtainable table d → table.Grows table' → Obtainable table' d
  /-- A root is set. -/
  | setRoot {table : SymbolTable} {d d' : Draft} {s : Symbol} :
      Obtainable table d → table.Has s → d.setRoot table s = .ok d' → Obtainable table d'
  /-- A rule is added. -/
  | addRule {table : SymbolTable} {d d' : Draft} {r : Rule} :
      Obtainable table d → table.Has r.left → (∀ s ∈ r.right, table.Has s) →
      d.addRule table r = .ok d' → Obtainable table d'

theorem setRoot_eq_ok_iff {s : Symbol} :
    d.setRoot table s = .ok d' ↔ s.kind = .nonterminal ∧ { d with root := some s } = d' := by
  rw [setRoot, Symbol.isNonterminal]
  by_cases h : s.kind = .nonterminal
  · rw [decide_eq_true h, if_pos rfl, Except.ok.injEq, and_iff_right h]
  · refine ⟨fun hok => ?_, fun hok => absurd hok.1 h⟩
    rw [decide_eq_false h] at hok
    cases hname : table.nameOf s <;> rw [hname] at hok <;> cases hok

theorem addRule_eq_ok_iff {r : Rule} : d.addRule table r = .ok d' ↔
    r.left.kind = .nonterminal ∧
      { root := some (d.root.getD r.left), rules := d.rules.insert r } = d' := by
  rw [addRule, Symbol.isNonterminal]
  by_cases h : r.left.kind = .nonterminal
  · rw [decide_eq_true h, if_pos rfl, Except.ok.injEq, and_iff_right h]
  · refine ⟨fun hok => ?_, fun hok => absurd hok.1 h⟩
    rw [decide_eq_false h] at hok
    cases hname : table.nameOf r.left <;> rw [hname] at hok <;> cases hok

theorem WellFormed.setRoot {s : Symbol} (hd : d.WellFormed table) (hs : table.Has s)
    (hok : d.setRoot table s = .ok d') : d'.WellFormed table := by
  obtain ⟨hkind, rfl⟩ := setRoot_eq_ok_iff.1 hok
  refine ⟨?_, hd.rules_wellFormed⟩
  rintro _ ⟨⟩
  exact ⟨hs, hkind⟩

theorem WellFormed.addRule {r : Rule} (hd : d.WellFormed table) (hleft : table.Has r.left)
    (hright : ∀ s ∈ r.right, table.Has s) (hok : d.addRule table r = .ok d') :
    d'.WellFormed table := by
  obtain ⟨hkind, rfl⟩ := addRule_eq_ok_iff.1 hok
  refine ⟨fun s hs => ?_, fun r' hr' => ?_⟩
  · rw [← Option.some_inj.1 hs]
    cases hroot : d.root with
    | none => exact ⟨hleft, hkind⟩
    | some root => exact hd.root_mem root hroot
  · rcases FinSet.mem_insert.1 hr' with rfl | hr'
    · exact ⟨⟨hleft, hkind⟩, hright⟩
    · exact hd.rules_wellFormed r' hr'

theorem Obtainable.wellFormed (h : d.Obtainable table) :
    table.Obtainable ∧ d.WellFormed table := by
  induction h with
  | empty ht => exact ⟨ht, fun _ h => (nomatch h), fun _ h => absurd h FinSet.not_mem_empty⟩
  | grows _ hgrows ih =>
    exact ⟨ih.1.grows hgrows, fun s hs => (ih.2.root_mem s hs).grows hgrows,
      fun r hr => (ih.2.rules_wellFormed r hr).grows hgrows⟩
  | setRoot _ hs hok ih => exact ⟨ih.1, ih.2.setRoot hs hok⟩
  | addRule _ hleft hright hok ih => exact ⟨ih.1, ih.2.addRule hleft hright hok⟩

end Draft

/-! ## Reading and deriving -/

/-- The symbols of a right side are in the table. -/
theorem interns_rightSideOfText (lefts : List (List Char)) (text : List Char) (t : SymbolTable) :
    Interns (rightSideOfText lefts text) (fun t right => ∀ s ∈ right, t.Has s) t := by
  rw [rightSideOfText]
  split
  · exact .pure fun _ _ s hs => absurd hs List.not_mem_nil
  · refine .mapM fun name _ t' _ => ?_
    exact (Interns.intern _ _ t').mono fun _ _ hs => hs.1

theorem interns_rulesOfLine (lefts : List (List Char)) (line : RuleLine) (t : SymbolTable) :
    Interns (rulesOfLine lefts line) (fun t rules => ∀ r ∈ rules, r.WellFormed t) t := by
  rw [rulesOfLine]
  refine .bind (.intern _ _ t) fun left t₁ _ hleft => .mapM fun piece _ t₂ hgrows => ?_
  refine .bind (interns_rightSideOfText lefts piece t₂) fun right t₃ hgrows' hright => ?_
  refine .pure fun t₄ hgrows'' => ⟨?_, hright t₄ hgrows''⟩
  exact hleft t₄ ((hgrows.trans hgrows').trans hgrows'')

/-- **What is read is well-formed.** -/
theorem interns_ofText (text : String) (t : SymbolTable) : Interns (ofText text) WellFormed t := by
  rw [ofText]
  refine .bind (.ofExcept _ t) fun lines t₁ _ _ => ?_
  refine .bind (.mapM fun line _ t' _ => interns_rulesOfLine _ line t') fun rules t₂ _ hrules => ?_
  have hall : ∀ t₃, t₂.Grows t₃ → ∀ r ∈ rules.flatten, r.WellFormed t₃ := fun t₃ hgrows r hr => by
    obtain ⟨l, hl, hr⟩ := List.mem_flatten.1 hr
    exact hrules t₃ hgrows l hl r hr
  dsimp only
  split
  · exact .throw _
  · rename_i first rest hflat
    rw [hflat] at hall
    refine .pure fun t₃ hgrows => ⟨?_, fun r hr => ?_⟩
    · exact (hall t₃ hgrows first List.mem_cons_self).left_mem
    · rw [hflat] at hr
      exact hall t₃ hgrows r (FinSet.mem_ofList.1 hr)

theorem interns_ruleOfEdge (e : Edge) (t : SymbolTable) :
    Interns (ruleOfEdge e) (fun t r => r.WellFormed t) t := by
  rw [ruleOfEdge]
  refine .bind (.intern _ _ t) fun left t₁ _ hleft => .bind (.intern _ _ t₁) fun a t₂ hgrows ha =>
    .bind (.intern _ _ t₂) fun n t₃ hgrows' hn => .pure fun t₄ hgrows'' => ?_
  refine ⟨hleft t₄ ((hgrows.trans hgrows').trans hgrows''), fun s hs => ?_⟩
  rcases List.mem_pair.1 hs with rfl | rfl
  · exact (ha t₄ (hgrows'.trans hgrows'')).1
  · exact (hn t₄ hgrows'').1

/-- **What is derived from an automaton is well-formed.** -/
theorem interns_ofAutomaton (A : NFA) (t : SymbolTable) :
    Interns (ofAutomaton A) WellFormed t := by
  rw [ofAutomaton]
  refine .bind (.intern _ _ t) fun root t₁ _ hroot =>
    .bind (.mapM fun e _ t' _ => interns_ruleOfEdge e t') fun rules t₂ hgrows hrules =>
      .pure fun t₃ hgrows' => ⟨hroot t₃ (hgrows.trans hgrows'), fun r hr => ?_⟩
  exact hrules t₃ hgrows' r (FinSet.mem_ofList.1 hr)

/-! ## Everything is well-formed -/

/-- The grammars that can be obtained, each with the table that its symbols come from. -/
inductive Obtainable : SymbolTable → Grammar → Prop where
  /-- A draft is finished. -/
  | drafted {table : SymbolTable} {d : Draft} {g : Grammar} :
      d.Obtainable table → d.finish = .ok g → Obtainable table g
  /-- A text is read. -/
  | text {table table' : SymbolTable} {text : String} {g : Grammar} :
      table.Obtainable → (ofText text).run table = .ok g table' → Obtainable table' g
  /-- The grammar of an automaton is derived. -/
  | automaton {table table' : SymbolTable} {A : NFA} {g : Grammar} :
      table.Obtainable → (ofAutomaton A).run table = .ok g table' → Obtainable table' g
  /-- More symbols are asked for. -/
  | grows {table table' : SymbolTable} {g : Grammar} :
      Obtainable table g → table.Grows table' → Obtainable table' g

/-- **Whatever can be obtained is well-formed.** -/
theorem Obtainable.wellFormed {g : Grammar} (h : g.Obtainable table) :
    table.Obtainable ∧ g.WellFormed table := by
  induction h with
  | drafted hd hok =>
    rename_i table d g
    obtain ⟨ht, hd⟩ := hd.wellFormed
    rw [Draft.finish] at hok
    cases hroot : d.root with
    | none =>
      rw [hroot] at hok
      cases hok
    | some root =>
      rw [hroot] at hok
      cases hok
      exact ⟨ht, hd.root_mem root hroot, hd.rules_wellFormed⟩
  | text ht hok =>
    obtain ⟨hgrows, hg⟩ := (interns_ofText _ _).of_run hok
    exact ⟨ht.grows hgrows, hg⟩
  | automaton ht hok =>
    obtain ⟨hgrows, hg⟩ := (interns_ofAutomaton _ _).of_run hok
    exact ⟨ht.grows hgrows, hg⟩
  | grows _ hgrows ih => exact ⟨ih.1.grows hgrows, ih.2.grows hgrows⟩

end Grammar

end Automata
