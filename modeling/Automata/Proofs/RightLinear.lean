import Automata.Proofs.FirstFailures
import Automata.Proofs.GrammarLanguage
import Automata.Proofs.Views
import Mathlib

/-!
# Which grammars an automaton can follow

An automaton can follow rules of three forms only, and a grammar becomes an automaton if all of its
rules are of these forms.  The rules are gone through in their order, so of several rules that stand
in the way the first one is reported, in words that its own form and the names in it determine.

## What is here

* `Rule.Reads`, `Rule.RightLinear` — the rules that an automaton can follow.
* `Rule.Written`, `Rule.Fault` — the text of a rule, and what is wrong with a rule of another form.
* `Rule.Before` — the order of rules, spelled out, and `Rule.before_iff`.
* `Grammar.statementsOfRule_eq_error_iff` — a rule is refused for its fault.
* `Grammar.FirstOffending`, `Grammar.WellFormed.toNFA_eq_error_iff` — **a grammar is refused for the
  fault of its first rule that is not right-linear.**
* `Grammar.Obtainable.toNFA_exact` — so exactly the right-linear grammars become automata.
-/

set_option autoImplicit false

namespace Automata

open Std

variable {table : SymbolTable} {root : Symbol} {r r' : Rule} {t : Symbol} {e : Error}
  {text : String}

/-! ## The forms of rules -/

/-- The rule has the form `A -> t` or `A -> t B`: it reads its first symbol, a terminal. -/
inductive Rule.Reads : Rule → Symbol → Prop where
  /-- Nothing follows. -/
  | last {A t : Symbol} : t.isTerminal = true → Reads ⟨A, [t]⟩ t
  /-- A nonterminal follows. -/
  | next {A t B : Symbol} : t.isTerminal = true → B.isNonterminal = true → Reads ⟨A, [t, B]⟩ t

/-- The rule reads a terminal whose name is one character, or is the empty alternative of the
root. -/
inductive Rule.RightLinear (table : SymbolTable) (root : Symbol) : Rule → Prop where
  /-- The empty alternative. -/
  | empty : RightLinear table root ⟨root, []⟩
  /-- The forms `A -> t` and `A -> t B`. -/
  | reads {r : Rule} {t : Symbol} {a : Char} :
      r.Reads t → table.nameOf t = .ok (String.singleton a) → RightLinear table root r

/-- The text of the rule: the names of its symbols, with an arrow behind the first. -/
def Rule.Written (table : SymbolTable) (r : Rule) (text : String) : Prop :=
  ∃ left right, table.nameOf r.left = .ok left ∧
    List.Forall₂ (fun s name => table.nameOf s = .ok name) r.right right ∧
    text = left ++ " -> " ++ " ".intercalate right

/-- What is wrong with a rule that no automaton can follow. -/
inductive Rule.Fault (table : SymbolTable) (root : Symbol) : Rule → Error → Prop where
  /-- The empty alternative of another nonterminal than the root. -/
  | misplacedEmpty {A : Symbol} {name : String} :
      A ≠ root → table.nameOf A = .ok name → Fault table root ⟨A, []⟩ (.misplacedEmptyRule name)
  /-- The name of the terminal is longer than one character, or empty. -/
  | longTerminal {r : Rule} {t : Symbol} {name text : String} :
      r.Reads t → table.nameOf t = .ok name → (∀ a, name ≠ String.singleton a) →
      r.Written table text →
      Fault table root r
        (.unsupportedRule text "terminals must consist of a single character")
  /-- The rule has neither of the forms `A -> t` and `A -> t B`. -/
  | otherForm {r : Rule} {text : String} :
      r.right ≠ [] → (∀ t, ¬r.Reads t) → r.Written table text →
      Fault table root r
        (.unsupportedRule text "only A -> t B, A -> t and A -> eps are right-linear")

/-! ## The order of rules -/

/-- The symbol comes earlier in its table. -/
def Symbol.Before (s t : Symbol) : Prop :=
  s.number < t.number ∨ s.number = t.number ∧ s.kind.rank < t.kind.rank

/-- The left side comes earlier, or the left sides are one and the right side comes earlier in
lexicographic order. -/
def Rule.Before (r r' : Rule) : Prop :=
  r.left.Before r'.left ∨ r.left = r'.left ∧ List.Lex Symbol.Before r.right r'.right

theorem Symbol.before_iff {s t : Symbol} : s.Before t ↔ compare s t = .lt := by
  have hlex : compare s t
      = compareLex (compareOn number) (compareOn fun s => s.kind.rank) s t := rfl
  rw [hlex]
  simp only [compareLex, compareOn, Ordering.then_eq_lt, compare_lt_iff_lt, Std.compare_eq_iff_eq,
    Before]

theorem lex_before_iff {l l' : List Symbol} :
    List.Lex Symbol.Before l l' ↔ compare l l' = .lt := by
  induction l generalizing l' with
  | nil =>
    cases l' with
    | nil => exact ⟨(fun h => nomatch h), fun h => nomatch h⟩
    | cons t l' => exact iff_of_true .nil List.compare_nil_cons
  | cons s l ih =>
    cases l' with
    | nil => exact ⟨(fun h => nomatch h), fun h => nomatch List.compare_cons_nil.symm.trans h⟩
    | cons t l' =>
      rw [List.compare_cons_cons, Ordering.then_eq_lt, Std.compare_eq_iff_eq, ← Symbol.before_iff,
        ← ih]
      constructor
      · rintro (_ | h | h)
        · exact .inl h
        · exact .inr ⟨rfl, h⟩
      · rintro (h | ⟨rfl, h⟩)
        · exact .rel h
        · exact .cons h

/-- A set of rules lists them in this order. -/
theorem Rule.before_iff : r.Before r' ↔ compare r r' = .lt := by
  have hlex : compare r r' = compareLex (compareOn left) (compareOn right) r r' := rfl
  rw [hlex]
  simp only [compareLex, compareOn, Ordering.then_eq_lt, Std.compare_eq_iff_eq, ← Symbol.before_iff,
    ← lex_before_iff, Before]

namespace Grammar

variable {g : Grammar} {accept : State} {reason : String}

/-! ## Rules one by one -/

theorem ruleText_eq_ok_iff : ruleText table r = .ok text ↔ r.Written table text := by
  rw [ruleText, bind_eq_ok_iff]
  simp only [namesText, bind_eq_ok_iff, mapM_eq_ok_iff, Rule.Written]
  constructor
  · rintro ⟨left, hleft, _, ⟨right, hright, ⟨⟩⟩, ⟨⟩⟩
    exact ⟨left, right, hleft, hright, rfl⟩
  · rintro ⟨left, right, hleft, hright, rfl⟩
    exact ⟨left, hleft, _, ⟨right, hright, rfl⟩, rfl⟩

/-- The symbols of a well-formed rule have names, so it can be written. -/
theorem exists_written (hr : r.WellFormed table) : ∃ text, r.Written table text := by
  obtain ⟨left, hleft⟩ := SymbolTable.exists_nameOf hr.left_mem.1
  obtain ⟨right, hright⟩ := exists_mapM_eq_ok fun s hs =>
    SymbolTable.exists_nameOf (hr.right_mem s hs)
  exact ⟨_, left, right, hleft, mapM_eq_ok_iff.1 hright, rfl⟩

theorem exists_left_of_written (h : r.Written table text) :
    ∃ left, table.nameOf r.left = .ok left := by
  obtain ⟨left, _, hleft, _⟩ := h
  exact ⟨left, hleft⟩

theorem unsupported_of_written {α : Type} (h : r.Written table text) :
    unsupported (α := α) table r reason = .error (.unsupportedRule text reason) := by
  rw [unsupported, ruleText_eq_ok_iff.2 h]
  rfl

theorem tapeSymbol_of_long {name : String} (hname : table.nameOf t = .ok name)
    (hlong : ∀ a, name ≠ String.singleton a) (h : r.Written table text) :
    tapeSymbol table r t
      = .error (.unsupportedRule text "terminals must consist of a single character") := by
  rw [tapeSymbol, hname]
  dsimp only [bind, Except.bind]
  split
  · rename_i a ha
    refine absurd (String.toList_inj.1 ?_) (hlong a)
    rw [ha, String.toList_singleton]
  · exact unsupported_of_written h

/-- A rule with a fault is refused for it. -/
theorem statementsOfRule_of_fault (h : r.Fault table root e) :
    statementsOfRule table root accept r = .error e := by
  cases h with
  | misplacedEmpty hroot hname =>
    simp only [statementsOfRule, hname, bind, Except.bind, if_neg hroot]
    rfl
  | longTerminal hreads hname hlong hwritten =>
    obtain ⟨left, hleft⟩ := exists_left_of_written hwritten
    cases hreads with
    | last ht =>
      simp only [statementsOfRule, hleft, bind, Except.bind, ht, if_pos,
        tapeSymbol_of_long hname hlong hwritten]
    | next ht hB =>
      simp only [statementsOfRule, hleft, bind, Except.bind, ht, hB, Bool.and_self, if_pos,
        tapeSymbol_of_long hname hlong hwritten]
  | otherForm hne hform hwritten =>
    obtain ⟨left, hleft⟩ := exists_left_of_written hwritten
    obtain ⟨A, right⟩ := r
    rcases right with _ | ⟨t, _ | ⟨B, _ | ⟨s, rest⟩⟩⟩
    · exact absurd rfl hne
    · have ht : ¬t.isTerminal = true := fun ht => hform t (.last ht)
      simp only [statementsOfRule, hleft, bind, Except.bind, if_neg ht]
      exact unsupported_of_written hwritten
    · have hkinds : ¬(t.isTerminal && B.isNonterminal) = true := fun h => by
        obtain ⟨ht, hB⟩ := Bool.and_eq_true_iff.1 h
        exact hform t (.next ht hB)
      simp only [statementsOfRule, hleft, bind, Except.bind, if_neg hkinds]
      exact unsupported_of_written hwritten
    · simp only [statementsOfRule, hleft, bind, Except.bind]
      exact unsupported_of_written hwritten

theorem mem_right_of_reads (h : r.Reads t) : t ∈ r.right := by
  cases h <;> exact List.mem_cons_self

/-- A rule that is not right-linear has a fault. -/
theorem exists_fault (hr : r.WellFormed table) (h : ¬r.RightLinear table root) :
    ∃ e, r.Fault table root e := by
  obtain ⟨text, hwritten⟩ := exists_written hr
  by_cases hreads : ∃ t, r.Reads t
  · obtain ⟨t, ht⟩ := hreads
    obtain ⟨name, hname⟩ := SymbolTable.exists_nameOf (hr.right_mem t (mem_right_of_reads ht))
    exact ⟨_, .longTerminal ht hname (fun a ha => h (.reads ht (ha ▸ hname))) hwritten⟩
  · obtain ⟨A, right⟩ := r
    cases right with
    | nil =>
      obtain ⟨name, hname⟩ := SymbolTable.exists_nameOf hr.left_mem.1
      exact ⟨_, .misplacedEmpty (fun hA => h (hA ▸ .empty)) hname⟩
    | cons s rest => exact ⟨_, .otherForm (List.cons_ne_nil s rest) (not_exists.1 hreads) hwritten⟩

/-- The right-linear rules are those that an automaton can follow. -/
theorem rightLinear_iff (hr : r.WellFormed table) :
    r.RightLinear table root ↔ ∃ statements, RuleSays table root accept r statements := by
  obtain ⟨left, hleft⟩ := SymbolTable.exists_nameOf hr.left_mem.1
  constructor
  · intro h
    cases h with
    | empty => exact ⟨_, .empty hleft⟩
    | reads hreads ha =>
      cases hreads with
      | last ht => exact ⟨_, .last hleft ht ha⟩
      | @next A _ B ht hB =>
        obtain ⟨name, hname⟩ := SymbolTable.exists_nameOf
          (hr.right_mem B (List.mem_cons_of_mem _ List.mem_cons_self))
        exact ⟨_, .next hleft ht ha hB hname⟩
  · rintro ⟨statements, h⟩
    cases h with
    | empty => exact .empty
    | last _ ht ha => exact .reads (.last ht) ha
    | next _ ht ha hB _ => exact .reads (.next ht hB) ha

theorem not_rightLinear_iff (hr : r.WellFormed table) :
    ¬r.RightLinear table root ↔ ∃ e, statementsOfRule table root accept r = .error e := by
  constructor
  · intro h
    obtain ⟨e, he⟩ := exists_fault hr h
    exact ⟨e, statementsOfRule_of_fault he⟩
  · rintro ⟨e, he⟩ h
    obtain ⟨statements, hsays⟩ := (rightLinear_iff hr).1 h
    cases he.symm.trans (statementsOfRule_eq_ok_iff.2 hsays)

/-- **A rule is refused for its fault.** -/
theorem statementsOfRule_eq_error_iff (hr : r.WellFormed table) :
    statementsOfRule table root accept r = .error e ↔ r.Fault table root e := by
  refine ⟨fun h => ?_, statementsOfRule_of_fault⟩
  obtain ⟨e', he'⟩ := exists_fault hr ((not_rightLinear_iff hr).2 ⟨e, h⟩)
  cases h.symm.trans (statementsOfRule_of_fault he')
  exact he'

/-! ## All rules of a grammar -/

/-- The rule is the first one that an automaton cannot follow. -/
structure FirstOffending (g : Grammar) (table : SymbolTable) (r : Rule) : Prop where
  /-- It is a rule of the grammar. -/
  mem : r ∈ g.rules
  /-- It is not right-linear. -/
  offends : ¬r.RightLinear table g.root
  /-- All others that are not right-linear come later. -/
  first : ∀ r', r' ∈ g.rules → ¬r'.RightLinear table g.root → r' = r ∨ r.Before r'

theorem firstOffending_iff : g.FirstOffending table r ↔
    g.rules.IsFirst (fun r => ¬r.RightLinear table g.root) r := by
  constructor
  · rintro ⟨hmem, hoffends, hfirst⟩
    exact ⟨hmem, hoffends, fun r' hr' h => (hfirst r' hr' h).imp_right Rule.before_iff.1⟩
  · rintro ⟨hmem, hoffends, hfirst⟩
    exact ⟨hmem, hoffends, fun r' hr' h => (hfirst r' hr' h).imp_right Rule.before_iff.2⟩

/-- A well-formed grammar can only be refused because of its rules. -/
theorem WellFormed.exists_accept (hg : g.WellFormed table) : ∃ accept, ∀ e,
    g.toNFA table = .error e ↔
      g.rules.toList.mapM (statementsOfRule table g.root accept) = .error e := by
  obtain ⟨states, hstates⟩ := exists_mapM_eq_ok (l := g.nonterminals.toList) fun n hn =>
    SymbolTable.exists_nameOf (hg.hasNonterminal hn).1
  obtain ⟨start, hstart⟩ := SymbolTable.exists_nameOf hg.root_mem.1
  refine ⟨unused states "FIN", fun e => ?_⟩
  simp only [toNFA, hstates, hstart, bind, Except.bind]
  cases hsaid : g.rules.toList.mapM (statementsOfRule table g.root (unused states "FIN")) with
  | error e' => simp only [Except.error.injEq]
  | ok said =>
    constructor
    · intro h
      obtain ⟨hnone, _⟩ := Description.toNFA_eq_error_iff.1 h
      cases (Description.start_addAll (start_not_mem_said hsaid)).symm.trans hnone
    · rintro ⟨⟩

/-- **A grammar is refused for the fault of its first rule that is not right-linear.** -/
theorem WellFormed.toNFA_eq_error_iff (hg : g.WellFormed table) : g.toNFA table = .error e ↔
    ∃ r, g.FirstOffending table r ∧ r.Fault table g.root e := by
  obtain ⟨accept, haccept⟩ := hg.exists_accept
  rw [haccept, FinSet.mapM_toList_eq_error_iff]
  have hoffends : ∀ r, r ∈ g.rules → (¬r.RightLinear table g.root ↔
      ∃ e, statementsOfRule table g.root accept r = .error e) := fun r hr =>
    not_rightLinear_iff (hg.rules_wellFormed r hr)
  refine exists_congr fun r => ?_
  rw [firstOffending_iff, FinSet.isFirst_congr hoffends]
  exact and_congr_right fun h => statementsOfRule_eq_error_iff (hg.rules_wellFormed r h.mem)

/-- A grammar without an offending rule becomes an automaton, and no other does. -/
theorem WellFormed.exists_toNFA_iff (hg : g.WellFormed table) :
    (∃ A, g.toNFA table = .ok A) ↔ ∀ r, r ∈ g.rules → r.RightLinear table g.root := by
  constructor
  · rintro ⟨A, hA⟩
    by_contra hoffends
    simp only [not_forall] at hoffends
    obtain ⟨r', hr', hoffends⟩ := hoffends
    obtain ⟨r, hfirst⟩ := FinSet.exists_isFirst (P := fun r => ¬r.RightLinear table g.root)
      ⟨r', hr', hoffends⟩
    obtain ⟨e, he⟩ := exists_fault (hg.rules_wellFormed r hfirst.mem) hfirst.holds
    cases hA.symm.trans (hg.toNFA_eq_error_iff.2 ⟨r, firstOffending_iff.2 hfirst, he⟩)
  · intro hall
    cases h : g.toNFA table with
    | ok A => exact ⟨A, rfl⟩
    | error e =>
      obtain ⟨r, hfirst, _⟩ := hg.toNFA_eq_error_iff.1 h
      exact absurd (hall r hfirst.mem) hfirst.offends

/-- **Exactly the right-linear grammars become automata.**  Any other is refused because of its
first rule that is not right-linear: by the name of its nonterminal if it is an empty alternative,
and else by its text. -/
theorem Obtainable.toNFA_exact (hg : g.Obtainable table) :
    ((∃ A, g.toNFA table = .ok A) ↔ ∀ r, r ∈ g.rules → r.RightLinear table g.root) ∧
    ∀ e, g.toNFA table = .error e ↔
      ∃ r, g.FirstOffending table r ∧ r.Fault table g.root e :=
  have ⟨_, hg⟩ := hg.wellFormed
  ⟨hg.exists_toNFA_iff, fun _ => hg.toNFA_eq_error_iff⟩

/-- The table of `crooked`. -/
def crookedTable : SymbolTable :=
  ⟨[(.nonterminal, "S"), (.terminal, "b"), (.terminal, "aa"), (.nonterminal, "T")]⟩

/-- Only `S -> b T` is right-linear.  The terminal of `S -> aa T` is too long, `S -> T b` is the
wrong way round, and `T` is not the root. -/
def crooked : Grammar where
  root := ⟨0, .nonterminal⟩
  rules := FinSet.ofList [⟨⟨3, .nonterminal⟩, []⟩,
    ⟨⟨0, .nonterminal⟩, [⟨2, .terminal⟩, ⟨3, .nonterminal⟩]⟩,
    ⟨⟨0, .nonterminal⟩, [⟨3, .nonterminal⟩, ⟨1, .terminal⟩]⟩,
    ⟨⟨0, .nonterminal⟩, [⟨1, .terminal⟩, ⟨3, .nonterminal⟩]⟩]

theorem obtainable_crooked : crooked.Obtainable crookedTable := by
  have ht : crookedTable.Obtainable :=
    .tail (.tail (.tail (.tail .refl ⟨.nonterminal, "S", ⟨0, .nonterminal⟩, by cbv⟩)
      ⟨.terminal, "b", ⟨1, .terminal⟩, by cbv⟩) ⟨.terminal, "aa", ⟨2, .terminal⟩, by cbv⟩)
      ⟨.nonterminal, "T", ⟨3, .nonterminal⟩, by cbv⟩
  have step : ∀ {d : Draft} (n : Nat) (right : List Symbol), d.Obtainable crookedTable →
      crookedTable.Has ⟨n, .nonterminal⟩ → (∀ s ∈ right, crookedTable.Has s) →
      Draft.Obtainable crookedTable ⟨some (d.root.getD ⟨n, .nonterminal⟩),
        d.rules.insert ⟨⟨n, .nonterminal⟩, right⟩⟩ :=
    fun n right hd hleft hright => .addRule (r := ⟨_, right⟩) hd hleft hright rfl
  refine .drafted (step 3 [] (step 0 [⟨2, .terminal⟩, ⟨3, .nonterminal⟩]
    (step 0 [⟨3, .nonterminal⟩, ⟨1, .terminal⟩] (step 0 [⟨1, .terminal⟩, ⟨3, .nonterminal⟩]
      (.empty ht) ?_ ?_) ?_ ?_) ?_ ?_) ?_ ?_) rfl
  all_goals decide

/-- Of the three rules that stand in the way, the one that is reported was neither the first that
was added nor is it the shortest. -/
theorem crooked_toNFA_exact :
    (crooked.Obtainable crookedTable ∧ ∃ r, crooked.FirstOffending crookedTable r ∧
      r.Fault crookedTable crooked.root
        (.unsupportedRule "S -> aa T" "terminals must consist of a single character")) ∧
    crowded.Obtainable crowdedTable ∧
      ∀ r, r ∈ crowded.rules → r.RightLinear crowdedTable crowded.root :=
  ⟨⟨obtainable_crooked, (obtainable_crooked.toNFA_exact.2 _).1 (by cbv)⟩,
    obtainable_crowded, obtainable_crowded.toNFA_exact.1.1 ⟨crowdedAutomaton, by cbv⟩⟩

end Grammar

end Automata
