import Automata.Proofs.Acceptance
import Automata.Proofs.Derivations
import Automata.Proofs.Description
import Automata.Proofs.Grammars
import Mathlib

/-!
# The automaton of a grammar accepts what the grammar generates

A derivation in a right-linear grammar is a run in disguise: its strings hold one nonterminal, at
the end, and the state of the run is the name of that nonterminal.  The names tell the nonterminals
apart, though not a nonterminal from a terminal, and the additional final state has a name that no
nonterminal has.

## What is here

* `Grammar.RuleSays` — the three forms of rules that an automaton can follow, and what they say.
* `Grammar.Follows` — what the automaton of a grammar consists of, and `Grammar.exists_follows`.
* `Grammar.Follows.mem_edges_iff`, `Grammar.Follows.yields_cons_iff` — the edges of a state and what
  its nonterminal yields go by the same alternatives.
* `Grammar.Follows.acceptsFrom_iff` — **the tapes accepted from the state of a nonterminal are those
  that the nonterminal yields.**
* `Grammar.Obtainable.accepts_iff_generates` — the automaton accepts what the grammar generates.
-/

set_option autoImplicit false

namespace Automata

namespace Grammar

variable {g : Grammar} {table : SymbolTable} {root n : Symbol} {accept q p : State} {r : Rule}
  {A : NFA} {a : Char} {w : List Char} {statements : List Statement}

/-! ## Rules -/

/-- What a rule says about the automaton, if an automaton can follow it. -/
inductive RuleSays (table : SymbolTable) (root : Symbol) (accept : State) :
    Rule → List Statement → Prop where
  /-- The root may be replaced by nothing. -/
  | empty {q : State} : table.nameOf root = .ok q →
      RuleSays table root accept ⟨root, []⟩ [.final q]
  /-- The last character is read. -/
  | last {n t : Symbol} {q : State} {a : Char} : table.nameOf n = .ok q → t.isTerminal = true →
      table.nameOf t = .ok (String.singleton a) →
      RuleSays table root accept ⟨n, [t]⟩ [.final accept, .edge ⟨q, a, accept⟩]
  /-- A character is read and more can follow. -/
  | next {n t m : Symbol} {q p : State} {a : Char} : table.nameOf n = .ok q →
      t.isTerminal = true → table.nameOf t = .ok (String.singleton a) → m.isNonterminal = true →
      table.nameOf m = .ok p → RuleSays table root accept ⟨n, [t, m]⟩ [.edge ⟨q, a, p⟩]

theorem unsupported_ne_ok {α : Type} {reason : String} {x : α} :
    unsupported table r reason ≠ .ok x := by
  rw [unsupported]
  intro h
  cases htext : ruleText table r <;> rw [htext] at h <;> cases h

theorem tapeSymbol_eq_ok_iff {t : Symbol} :
    tapeSymbol table r t = .ok a ↔ table.nameOf t = .ok (String.singleton a) := by
  rw [tapeSymbol]
  cases hname : table.nameOf t with
  | error e =>
    constructor
    · rintro ⟨⟩
    · rintro ⟨⟩
  | ok name =>
    rw [Except.ok.injEq, ← String.toList_inj, String.toList_singleton]
    dsimp only [bind, Except.bind]
    split
    · rename_i b hb
      rw [hb, List.singleton_inj]
      exact Except.ok.injEq b a ▸ Iff.rfl
    · rename_i hne
      exact ⟨fun h => absurd h unsupported_ne_ok, fun h => absurd h (hne a)⟩

/-- The rules that an automaton can follow are those of the three forms. -/
theorem statementsOfRule_eq_ok_iff :
    statementsOfRule table root accept r = .ok statements ↔
      RuleSays table root accept r statements := by
  refine ⟨fun h => ?_, fun h => ?_⟩
  · obtain ⟨n, right⟩ := r
    obtain ⟨q, hq, hok⟩ := bind_eq_ok_iff.1 h
    dsimp only at hq hok
    split at hok
    · split at hok
      · rename_i hroot
        cases hok
        exact hroot ▸ .empty (hroot ▸ hq)
      · cases hok
    · split at hok
      · rename_i t ht
        obtain ⟨a, ha, ⟨⟩⟩ := bind_eq_ok_iff.1 hok
        exact .last hq ht (tapeSymbol_eq_ok_iff.1 ha)
      · exact absurd hok unsupported_ne_ok
    · split at hok
      · rename_i t m hkinds
        obtain ⟨ht, hm⟩ := Bool.and_eq_true_iff.1 hkinds
        obtain ⟨a, ha, hnext⟩ := bind_eq_ok_iff.1 hok
        obtain ⟨p, hp, ⟨⟩⟩ := bind_eq_ok_iff.1 hnext
        exact .next hq ht (tapeSymbol_eq_ok_iff.1 ha) hm hp
      · exact absurd hok unsupported_ne_ok
    · exact absurd hok unsupported_ne_ok
  · cases h with
    | empty hq =>
      simp only [statementsOfRule, hq, bind, Except.bind, if_pos]
      rfl
    | last hq ht ha =>
      simp only [statementsOfRule, hq, bind, Except.bind, ht, if_pos, tapeSymbol_eq_ok_iff.2 ha]
      rfl
    | next hq ht ha hm hp =>
      simp only [statementsOfRule, hq, bind, Except.bind, ht, hm, Bool.and_self, if_pos,
        tapeSymbol_eq_ok_iff.2 ha, hp]
      rfl

/-- Rules do not name a start. -/
theorem RuleSays.start_not_mem (h : RuleSays table root accept r statements) (q : State) :
    .start q ∉ statements := by
  cases h <;> simp

/-! ## The automaton -/

/-- `A` is the automaton of the grammar, with `accept` for its additional final state. -/
structure Follows (table : SymbolTable) (accept : State) (A : NFA) (g : Grammar) : Prop where
  start_eq : table.nameOf g.root = .ok A.start
  accept_ne : ∀ n, n ∈ g.nonterminals → table.nameOf n ≠ .ok accept
  readable : ∀ r, r ∈ g.rules → ∃ statements, RuleSays table g.root accept r statements
  mem_finals : ∀ q, q ∈ A.finals ↔ ∃ r statements, r ∈ g.rules ∧
    RuleSays table g.root accept r statements ∧ .final q ∈ statements
  mem_edges : ∀ e, e ∈ A.edges ↔ ∃ r statements, r ∈ g.rules ∧
    RuleSays table g.root accept r statements ∧ .edge e ∈ statements

section

variable {states : List State} {q₀ : State} {said : List (List Statement)} {s : Statement}

/-- What is said about edges and final states is said by the rules. -/
theorem mem_said_iff
    (hsaid : g.rules.toList.mapM (statementsOfRule table g.root accept) = .ok said)
    (hstate : ∀ q, s ≠ .state q) (hstart : s ≠ .start q₀) :
    s ∈ .start q₀ :: states.map .state ++ said.flatten ↔ ∃ r statements, r ∈ g.rules ∧
      RuleSays table g.root accept r statements ∧ s ∈ statements := by
  have hfirst : s ∉ .start q₀ :: states.map .state := by
    rw [List.mem_cons, List.mem_map]
    rintro (hs | ⟨q, _, hs⟩)
    · exact hstart hs
    · exact hstate q hs.symm
  rw [List.mem_append, or_iff_right hfirst, List.mem_flatten]
  simp only [mem_of_mapM_eq_ok hsaid, statementsOfRule_eq_ok_iff]
  refine ⟨?_, ?_⟩
  · rintro ⟨l, ⟨r, hr, hrl⟩, hs⟩
    exact ⟨r, l, hr, hrl, hs⟩
  · rintro ⟨r, l, hr, hrl, hs⟩
    exact ⟨l, ⟨r, hr, hrl⟩, hs⟩

/-- After the first statement, no start is named. -/
theorem start_not_mem_said
    (hsaid : g.rules.toList.mapM (statementsOfRule table g.root accept) = .ok said) (q : State) :
    .start q ∉ states.map .state ++ said.flatten := by
  intro hq
  rcases List.mem_append.1 hq with hq | hq
  · obtain ⟨_, _, hq⟩ := List.mem_map.1 hq
    cases hq
  · obtain ⟨l, hl, hq⟩ := List.mem_flatten.1 hq
    obtain ⟨r, _, hr⟩ := (mem_of_mapM_eq_ok hsaid).1 hl
    exact (statementsOfRule_eq_ok_iff.1 hr).start_not_mem q hq

end

/-- A grammar that can be made an automaton is followed by it, with an unused name for the
additional final state. -/
theorem exists_follows_unused (h : g.toNFA table = .ok A) :
    ∃ states, g.Follows table (unused states "FIN") A := by
  obtain ⟨states, hstates, hrest⟩ := bind_eq_ok_iff.1 h
  obtain ⟨root, hroot, hrest⟩ := bind_eq_ok_iff.1 hrest
  obtain ⟨said, hsaid, hok⟩ := bind_eq_ok_iff.1 hrest
  obtain ⟨start, hstart, rfl⟩ := Description.toNFA_eq_ok_iff.1 hok
  refine ⟨states, ?_, fun n hn hname => ?_, fun r hr => ?_, fun q => ?_, fun e => ?_⟩
  · have hfirst : (Description.empty.add (.start root)).start = some start :=
      (Description.start_addAll (start_not_mem_said hsaid)).symm.trans hstart
    rw [hroot, Option.some_inj.1 hfirst]
  · exact unused_not_mem states "FIN" ((mem_of_mapM_eq_ok hstates).2 ⟨n, hn, hname⟩)
  · obtain ⟨l, _, hl⟩ := exists_of_mapM_eq_ok hsaid hr
    exact ⟨l, statementsOfRule_eq_ok_iff.1 hl⟩
  · rw [← mem_said_iff hsaid (fun _ => Statement.noConfusion) Statement.noConfusion]
    exact Description.mem_finals_addAll.trans (or_iff_right FinSet.not_mem_empty)
  · rw [← mem_said_iff hsaid (fun _ => Statement.noConfusion) Statement.noConfusion]
    exact Description.mem_edges_addAll.trans (or_iff_right FinSet.not_mem_empty)

theorem exists_follows (h : g.toNFA table = .ok A) : ∃ accept, g.Follows table accept A :=
  have ⟨_, hfollows⟩ := exists_follows_unused h
  ⟨_, hfollows⟩

theorem mem_nonterminals : n ∈ g.nonterminals ↔ n = g.root ∨ (∃ r, r ∈ g.rules ∧ r.left = n) ∨
    ∃ r, r ∈ g.rules ∧ n ∈ r.right ∧ n.isNonterminal = true := by
  rw [nonterminals, FinSet.mem_ofList, List.cons_append, List.mem_cons, List.mem_append,
    List.mem_filter, rightSymbols, List.mem_flatMap, leftSides, FinSet.mem_toList, FinSet.mem_map]
  simp only [FinSet.mem_toList, ← and_assoc, exists_and_right]

theorem left_mem_nonterminals (hr : r ∈ g.rules) : r.left ∈ g.nonterminals :=
  mem_nonterminals.2 (.inr (.inl ⟨r, hr, rfl⟩))

theorem right_mem_nonterminals (hr : r ∈ g.rules) (hn : n ∈ r.right)
    (hkind : n.isNonterminal = true) : n ∈ g.nonterminals :=
  mem_nonterminals.2 (.inr (.inr ⟨r, hr, hn, hkind⟩))

/-- Every nonterminal of the grammar is one of the table. -/
theorem WellFormed.hasNonterminal (hg : g.WellFormed table) (hn : n ∈ g.nonterminals) :
    table.HasNonterminal n := by
  rcases mem_nonterminals.1 hn with rfl | ⟨r, hr, rfl⟩ | ⟨r, hr, hright, hkind⟩
  · exact hg.root_mem
  · exact (hg.rules_wellFormed r hr).left_mem
  · exact ⟨(hg.rules_wellFormed r hr).right_mem n hright, Symbol.isNonterminal_iff.1 hkind⟩

theorem WellFormed.left_isNonterminal (hg : g.WellFormed table) (r : Rule) (hr : r ∈ g.rules) :
    r.left.isNonterminal = true :=
  Symbol.isNonterminal_iff.2 (hg.rules_wellFormed r hr).left_mem.2

/-! ## Derivations and runs -/

namespace Follows

/-- The name of a nonterminal tells which one it is. -/
theorem eq_of_name (ht : table.entries.Nodup) (hg : g.WellFormed table) {m : Symbol}
    (hn : n ∈ g.nonterminals) (hm : m ∈ g.nonterminals) (hnq : table.nameOf n = .ok q)
    (hmq : table.nameOf m = .ok q) : n = m :=
  have hn := hg.hasNonterminal hn
  have hm := hg.hasNonterminal hm
  SymbolTable.eq_of_nameOf ht hn.1 hm.1 (hn.2.trans hm.2.symm) hnq hmq

/-- The state of a nonterminal is final exactly if the nonterminal may be replaced by nothing. -/
theorem mem_finals_iff (ht : table.entries.Nodup) (hg : g.WellFormed table)
    (h : g.Follows table accept A) (hn : n ∈ g.nonterminals) (hq : table.nameOf n = .ok q) :
    q ∈ A.finals ↔ (⟨n, []⟩ : Rule) ∈ g.rules := by
  rw [h.mem_finals]
  refine ⟨?_, fun hr => ?_⟩
  · rintro ⟨r, l, hr, hsays, hmem⟩
    cases hsays with
    | empty hroot =>
      cases List.mem_singleton.1 hmem
      rw [eq_of_name ht hg hn (mem_nonterminals.2 (.inl rfl)) hq hroot]
      exact hr
    | last _ _ _ =>
      rcases List.mem_pair.1 hmem with hmem | hmem
      · cases hmem
        exact absurd hq (h.accept_ne n hn)
      · cases hmem
    | next _ _ _ _ _ => cases List.mem_singleton.1 hmem
  · obtain ⟨l, hsays⟩ := h.readable _ hr
    cases hsays with
    | empty hroot =>
      rw [hq] at hroot
      cases hroot
      exact ⟨_, _, hr, .empty hq, List.mem_singleton.2 rfl⟩

/-- The edges that leave the state of a nonterminal are the alternatives of the nonterminal. -/
theorem mem_edges_iff (ht : table.entries.Nodup) (hg : g.WellFormed table)
    (h : g.Follows table accept A) (hn : n ∈ g.nonterminals) (hq : table.nameOf n = .ok q) :
    (⟨q, a, p⟩ : Edge) ∈ A.edges ↔
      ∃ t, t.isTerminal = true ∧ table.nameOf t = .ok (String.singleton a) ∧
        ((⟨n, [t]⟩ : Rule) ∈ g.rules ∧ p = accept ∨
          ∃ m, (⟨n, [t, m]⟩ : Rule) ∈ g.rules ∧ m.isNonterminal = true ∧
            table.nameOf m = .ok p) := by
  rw [h.mem_edges]
  refine ⟨?_, ?_⟩
  · rintro ⟨r, l, hr, hsays, hmem⟩
    have hleft := left_mem_nonterminals hr
    cases hsays with
    | empty _ => cases List.mem_singleton.1 hmem
    | last hname hterminal ha =>
      rcases List.mem_pair.1 hmem with hmem | hmem
      · cases hmem
      · cases hmem
        rw [eq_of_name ht hg hn hleft hq hname]
        exact ⟨_, hterminal, ha, .inl ⟨hr, rfl⟩⟩
    | next hname hterminal ha hkind hp =>
      cases List.mem_singleton.1 hmem
      rw [eq_of_name ht hg hn hleft hq hname]
      exact ⟨_, hterminal, ha, .inr ⟨_, hr, hkind, hp⟩⟩
  · rintro ⟨t, hterminal, ha, ⟨hr, rfl⟩ | ⟨m, hr, hkind, hp⟩⟩
    · exact ⟨_, _, hr, .last hq hterminal ha, List.mem_pair.2 (.inr rfl)⟩
    · exact ⟨_, _, hr, .next hq hterminal ha hkind hp, List.mem_singleton.2 rfl⟩

/-- Nothing can be read any more in the additional final state. -/
theorem acceptsFrom_accept (h : g.Follows table accept A) (hw : A.AcceptsFrom accept w) :
    w = [] := by
  cases w with
  | nil => rfl
  | cons a w =>
    obtain ⟨p, he, _⟩ := NFA.acceptsFrom_cons_iff.1 hw
    obtain ⟨r, l, hr, hsays, hmem⟩ := (h.mem_edges _).1 he
    have hleft := h.accept_ne r.left (left_mem_nonterminals hr)
    cases hsays with
    | empty _ => cases List.mem_singleton.1 hmem
    | last hname _ _ =>
      rcases List.mem_pair.1 hmem with hmem | hmem
      · cases hmem
      · cases hmem
        exact absurd hname hleft
    | next hname _ _ _ _ =>
      cases List.mem_singleton.1 hmem
      exact absurd hname hleft

/-- A nonterminal yields the empty tape exactly if it may be replaced by nothing. -/
theorem yields_empty_iff (hg : g.WellFormed table) (h : g.Follows table accept A)
    (hn : n ∈ g.nonterminals) : g.Yields table [n] [] ↔ (⟨n, []⟩ : Rule) ∈ g.rules := by
  have hlefts := hg.left_isNonterminal
  rw [yields_nonterminal_iff (Symbol.isNonterminal_iff.2 (hg.hasNonterminal hn).2)]
  refine ⟨?_, fun hr => ⟨[], hr, yields_nil_iff.2 rfl⟩⟩
  rintro ⟨x, hr, hx⟩
  obtain ⟨l, hsays⟩ := h.readable _ hr
  -- every other alternative begins with a character
  cases hsays with
  | empty _ => exact hr
  | last _ hterminal _ =>
    obtain ⟨_, _, hnil, _⟩ := (yields_terminal_cons_iff hlefts hterminal).1 hx
    cases hnil
  | next _ hterminal _ _ _ =>
    obtain ⟨_, _, hnil, _⟩ := (yields_terminal_cons_iff hlefts hterminal).1 hx
    cases hnil

/-- A nonterminal yields other tapes by the alternatives that begin with their first character. -/
theorem yields_cons_iff (hg : g.WellFormed table) (h : g.Follows table accept A)
    (hn : n ∈ g.nonterminals) :
    g.Yields table [n] (a :: w) ↔
      ∃ t, t.isTerminal = true ∧ table.nameOf t = .ok (String.singleton a) ∧
        ((⟨n, [t]⟩ : Rule) ∈ g.rules ∧ w = [] ∨
          ∃ m, (⟨n, [t, m]⟩ : Rule) ∈ g.rules ∧ m.isNonterminal = true ∧
            g.Yields table [m] w) := by
  have hlefts := hg.left_isNonterminal
  rw [yields_nonterminal_iff (Symbol.isNonterminal_iff.2 (hg.hasNonterminal hn).2)]
  refine ⟨?_, ?_⟩
  · rintro ⟨x, hr, hx⟩
    obtain ⟨l, hsays⟩ := h.readable _ hr
    cases hsays with
    | empty _ => cases yields_nil_iff.1 hx
    | last _ hterminal _ =>
      obtain ⟨_, _, ⟨⟩, ha, hrest⟩ := (yields_terminal_cons_iff hlefts hterminal).1 hx
      exact ⟨_, hterminal, ha, .inl ⟨hr, yields_nil_iff.1 hrest⟩⟩
    | next _ hterminal _ hkind _ =>
      obtain ⟨_, _, ⟨⟩, ha, hrest⟩ := (yields_terminal_cons_iff hlefts hterminal).1 hx
      exact ⟨_, hterminal, ha, .inr ⟨_, hr, hkind, hrest⟩⟩
  · rintro ⟨t, hterminal, ha, ⟨hr, rfl⟩ | ⟨m, hr, _, hrest⟩⟩
    · exact ⟨[t], hr, (yields_terminal_cons_iff hlefts hterminal).2
        ⟨a, [], rfl, ha, yields_nil_iff.2 rfl⟩⟩
    · exact ⟨[t, m], hr, (yields_terminal_cons_iff hlefts hterminal).2 ⟨a, w, rfl, ha, hrest⟩⟩

/-- The additional final state is final if there is a rule that ends there. -/
theorem accept_mem_finals (h : g.Follows table accept A) {t : Symbol}
    (hr : (⟨n, [t]⟩ : Rule) ∈ g.rules) : accept ∈ A.finals := by
  obtain ⟨l, hsays⟩ := h.readable _ hr
  cases hsays with
  | last hname hterminal ha =>
    exact (h.mem_finals accept).2 ⟨_, _, hr, .last hname hterminal ha, List.mem_cons_self⟩

/-- A nonterminal that more can follow with has a name. -/
theorem exists_nameOf_next (h : g.Follows table accept A) {t m : Symbol}
    (hr : (⟨n, [t, m]⟩ : Rule) ∈ g.rules) : ∃ p, table.nameOf m = .ok p := by
  obtain ⟨l, hsays⟩ := h.readable _ hr
  cases hsays with
  | next _ _ _ _ hp => exact ⟨_, hp⟩

/-- **The tapes accepted from the state of a nonterminal are those that the nonterminal yields.** -/
theorem acceptsFrom_iff (ht : table.entries.Nodup) (hg : g.WellFormed table)
    (h : g.Follows table accept A) (hn : n ∈ g.nonterminals) (hq : table.nameOf n = .ok q) :
    A.AcceptsFrom q w ↔ g.Yields table [n] w := by
  -- every character takes one edge of the run and one rule of the derivation
  induction w generalizing n q with
  | nil => rw [NFA.acceptsFrom_nil_iff, h.mem_finals_iff ht hg hn hq, h.yields_empty_iff hg hn]
  | cons a w ih =>
    simp only [NFA.acceptsFrom_cons_iff, h.mem_edges_iff ht hg hn hq, h.yields_cons_iff hg hn]
    have hnext : ∀ {t m : Symbol}, (⟨n, [t, m]⟩ : Rule) ∈ g.rules → m.isNonterminal = true →
        m ∈ g.nonterminals := fun hr hkind =>
      right_mem_nonterminals hr (List.mem_cons_of_mem _ (List.mem_singleton.2 rfl)) hkind
    refine ⟨?_, ?_⟩
    · rintro ⟨p, ⟨t, hterminal, ha, ⟨hr, rfl⟩ | ⟨m, hr, hkind, hp⟩⟩, hacc⟩
      · exact ⟨t, hterminal, ha, .inl ⟨hr, h.acceptsFrom_accept hacc⟩⟩
      · exact ⟨t, hterminal, ha, .inr ⟨m, hr, hkind, (ih (hnext hr hkind) hp).1 hacc⟩⟩
    · rintro ⟨t, hterminal, ha, ⟨hr, rfl⟩ | ⟨m, hr, hkind, hyields⟩⟩
      · exact ⟨accept, ⟨t, hterminal, ha, .inl ⟨hr, rfl⟩⟩,
          NFA.acceptsFrom_nil_iff.2 (h.accept_mem_finals hr)⟩
      · obtain ⟨p, hp⟩ := h.exists_nameOf_next hr
        exact ⟨p, ⟨t, hterminal, ha, .inr ⟨m, hr, hkind, hp⟩⟩,
          (ih (hnext hr hkind) hp).2 hyields⟩

end Follows

/-- **The automaton of a grammar accepts the tapes that the grammar generates**, whatever the
nonterminals are called. -/
theorem Obtainable.accepts_iff_generates (hg : g.Obtainable table) (h : g.toNFA table = .ok A)
    (tape : List Char) : A.accepts tape = true ↔ g.Generates table tape := by
  obtain ⟨ht, hg⟩ := hg.wellFormed
  obtain ⟨accept, h⟩ := exists_follows h
  rw [NFA.accepts_iff]
  exact h.acceptsFrom_iff ht.nodup hg (mem_nonterminals.2 (.inl rfl)) h.start_eq

/-- The table of `crowded`, in which the name `a` is used twice. -/
def crowdedTable : SymbolTable := ⟨[(.nonterminal, "a"), (.terminal, "a"), (.nonterminal, "FIN")]⟩

/-- The root shares its name with a terminal and occurs on the right, and `FIN` has no rules. -/
def crowded : Grammar where
  root := ⟨0, .nonterminal⟩
  rules := FinSet.ofList [⟨⟨0, .nonterminal⟩, []⟩, ⟨⟨0, .nonterminal⟩, [⟨1, .terminal⟩]⟩,
    ⟨⟨0, .nonterminal⟩, [⟨1, .terminal⟩, ⟨0, .nonterminal⟩]⟩,
    ⟨⟨0, .nonterminal⟩, [⟨1, .terminal⟩, ⟨2, .nonterminal⟩]⟩]

/-- The automaton of `crowded`. -/
def crowdedAutomaton : NFA where
  states := FinSet.ofList ["FIN", "FIN'", "a"]
  alphabet := FinSet.ofList ['a']
  start := "a"
  finals := FinSet.ofList ["FIN'", "a"]
  edges := FinSet.ofList [⟨"a", 'a', "FIN"⟩, ⟨"a", 'a', "FIN'"⟩, ⟨"a", 'a', "a"⟩]

theorem obtainable_crowded : crowded.Obtainable crowdedTable := by
  have ht : crowdedTable.Obtainable :=
    .tail (.tail (.tail .refl ⟨.nonterminal, "a", ⟨0, .nonterminal⟩, by cbv⟩)
      ⟨.terminal, "a", ⟨1, .terminal⟩, by cbv⟩) ⟨.nonterminal, "FIN", ⟨2, .nonterminal⟩, by cbv⟩
  have hroot : crowdedTable.Has ⟨0, .nonterminal⟩ := by decide
  have step : ∀ {d : Draft} (right : List Symbol), d.Obtainable crowdedTable →
      (∀ s ∈ right, crowdedTable.Has s) →
      Draft.Obtainable crowdedTable ⟨_, d.rules.insert ⟨⟨0, .nonterminal⟩, right⟩⟩ :=
    fun right hd hright => .addRule (r := ⟨_, right⟩) hd hroot hright rfl
  refine .drafted (step [] (step [⟨1, .terminal⟩] (step [⟨1, .terminal⟩, ⟨0, .nonterminal⟩]
    (step [⟨1, .terminal⟩, ⟨2, .nonterminal⟩] (.empty ht) ?_) ?_) ?_) ?_) rfl
  all_goals decide

theorem crowded_accepts_iff_generates : crowded.Obtainable crowdedTable ∧
    crowded.toNFA crowdedTable = .ok crowdedAutomaton ∧
    ∀ tape, crowdedAutomaton.accepts tape = true ↔ crowded.Generates crowdedTable tape :=
  ⟨obtainable_crowded, by cbv, obtainable_crowded.accepts_iff_generates (by cbv)⟩

end Grammar

end Automata
