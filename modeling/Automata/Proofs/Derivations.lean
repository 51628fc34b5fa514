import Automata.Grammar.Basic
import Mathlib.Data.List.Forall2
import Mathlib.Logic.Relation

/-!
# Derivations

What a grammar means is said by its derivations: any nonterminal of a string of symbols may be
replaced by any of its alternatives, until there are terminals only, and these spell a tape.

## What is here

* `Grammar.Step`, `Grammar.Derives` — one replacement, and any number of them.
* `Spells` — the tape that a string of terminals stands for.
* `Grammar.Yields`, `Grammar.Generates` — the tapes that can be derived from a string of symbols,
  and from the root.
* `Grammar.yields_nil_iff`, `Grammar.yields_terminal_cons_iff`, `Grammar.yields_nonterminal_iff` —
  what can be derived, read off the front of the string.
-/

set_option autoImplicit false

namespace Automata

/-- Terminals spell a tape if the name of each is the character in its place. -/
def Spells (table : SymbolTable) (symbols : List Symbol) (tape : List Char) : Prop :=
  List.Forall₂ (fun s a => s.isTerminal = true ∧ table.nameOf s = .ok (String.singleton a))
    symbols tape

namespace Symbol

variable {s : Symbol}

theorem isTerminal_iff : s.isTerminal = true ↔ s.kind = .terminal := decide_eq_true_iff

theorem isNonterminal_iff : s.isNonterminal = true ↔ s.kind = .nonterminal := decide_eq_true_iff

/-- No symbol is of both kinds. -/
theorem not_isTerminal (h : s.isNonterminal = true) : ¬s.isTerminal = true := by
  rw [isTerminal_iff, isNonterminal_iff.1 h]
  exact SymbolKind.noConfusion

end Symbol

namespace Grammar

/-- Somewhere in a string of symbols the left side of a rule gives way to the right side. -/
def Step (g : Grammar) (x y : List Symbol) : Prop :=
  ∃ (r : Rule) (before after : List Symbol),
    r ∈ g.rules ∧ x = before ++ r.left :: after ∧ y = before ++ r.right ++ after

/-- Any number of steps. -/
abbrev Derives (g : Grammar) : List Symbol → List Symbol → Prop := Relation.ReflTransGen g.Step

/-- The tape can be derived from the string `x`. -/
def Yields (g : Grammar) (table : SymbolTable) (x : List Symbol) (tape : List Char) : Prop :=
  ∃ y, g.Derives x y ∧ Spells table y tape

/-- The tape can be derived from the root. -/
def Generates (g : Grammar) (table : SymbolTable) (tape : List Char) : Prop :=
  g.Yields table [g.root] tape

variable {g : Grammar} {table : SymbolTable} {t n : Symbol} {x y : List Symbol} {w : List Char}

/-! ## The front of a string -/

theorem not_step_nil : ¬g.Step [] y := by
  rintro ⟨r, before, after, _, hx, _⟩
  exact List.append_ne_nil_of_right_ne_nil before (List.cons_ne_nil _ _) hx.symm

theorem step_singleton_iff : g.Step [n] y ↔ (⟨n, y⟩ : Rule) ∈ g.rules := by
  refine ⟨?_, fun h => ⟨_, [], [], h, rfl, (List.append_nil y).symm⟩⟩
  rintro ⟨⟨left, right⟩, before, after, hr, hx, rfl⟩
  cases before with
  | nil =>
    cases hx
    rw [List.nil_append, List.append_nil]
    exact hr
  | cons s before =>
    obtain ⟨_, hx⟩ := List.cons.inj hx
    exact absurd hx.symm (List.append_ne_nil_of_right_ne_nil before (List.cons_ne_nil _ _))

/-- What can be done behind a symbol can be done with the symbol in front. -/
theorem Step.cons (h : g.Step x y) : g.Step (t :: x) (t :: y) := by
  obtain ⟨r, before, after, hr, rfl, rfl⟩ := h
  exact ⟨r, t :: before, after, hr, rfl, rfl⟩

/-- A terminal stays where it is. -/
theorem Step.of_cons (hg : ∀ r, r ∈ g.rules → r.left.isNonterminal = true)
    (ht : t.isTerminal = true) (h : g.Step (t :: x) y) : ∃ z, y = t :: z ∧ g.Step x z := by
  obtain ⟨r, before, after, hr, hx, rfl⟩ := h
  cases before with
  | nil =>
    obtain ⟨rfl, _⟩ := List.cons.inj hx
    exact absurd ht (Symbol.not_isTerminal (hg r hr))
  | cons s before =>
    obtain ⟨rfl, rfl⟩ := List.cons.inj hx
    exact ⟨before ++ r.right ++ after, rfl, r, before, after, hr, rfl, rfl⟩

theorem Derives.of_nil (h : g.Derives [] y) : y = [] := by
  rcases h.cases_head with rfl | ⟨z, hz, _⟩
  · rfl
  · exact absurd hz not_step_nil

theorem Derives.of_cons (hg : ∀ r, r ∈ g.rules → r.left.isNonterminal = true)
    (ht : t.isTerminal = true) (h : g.Derives (t :: x) y) :
    ∃ z, y = t :: z ∧ g.Derives x z := by
  induction h with
  | refl => exact ⟨x, rfl, .refl⟩
  | tail _ hstep ih =>
    obtain ⟨z, rfl, hz⟩ := ih
    obtain ⟨z', rfl, hz'⟩ := hstep.of_cons hg ht
    exact ⟨z', rfl, hz.tail hz'⟩

/-! ## What can be derived -/

theorem yields_nil_iff : g.Yields table [] w ↔ w = [] := by
  refine ⟨?_, ?_⟩
  · rintro ⟨y, hy, hspells⟩
    rw [hy.of_nil] at hspells
    exact List.forall₂_nil_left_iff.1 hspells
  · rintro rfl
    exact ⟨[], .refl, .nil⟩

/-- A terminal at the front spells the first character. -/
theorem yields_terminal_cons_iff (hg : ∀ r, r ∈ g.rules → r.left.isNonterminal = true)
    (ht : t.isTerminal = true) : g.Yields table (t :: x) w ↔
      ∃ a v, w = a :: v ∧ table.nameOf t = .ok (String.singleton a) ∧ g.Yields table x v := by
  refine ⟨?_, ?_⟩
  · rintro ⟨y, hy, hspells⟩
    obtain ⟨z, rfl, hz⟩ := hy.of_cons hg ht
    obtain ⟨a, v, ⟨_, hname⟩, hv, rfl⟩ := List.forall₂_cons_left_iff.1 hspells
    exact ⟨a, v, rfl, hname, z, hz, hv⟩
  · rintro ⟨a, v, rfl, hname, z, hz, hv⟩
    exact ⟨t :: z, hz.lift (t :: ·) fun _ _ => Step.cons, .cons ⟨ht, hname⟩ hv⟩

/-- A nonterminal that stands alone must give way to one of its alternatives. -/
theorem yields_nonterminal_iff (hn : n.isNonterminal = true) :
    g.Yields table [n] w ↔ ∃ x, (⟨n, x⟩ : Rule) ∈ g.rules ∧ g.Yields table x w := by
  refine ⟨?_, ?_⟩
  · rintro ⟨y, hy, hspells⟩
    rcases hy.cases_head with rfl | ⟨x, hx, hxy⟩
    · obtain ⟨a, v, ⟨ht, _⟩, _, _⟩ := List.forall₂_cons_left_iff.1 hspells
      exact absurd ht (Symbol.not_isTerminal hn)
    · exact ⟨x, step_singleton_iff.1 hx, y, hxy, hspells⟩
  · rintro ⟨x, hx, y, hy, hspells⟩
    exact ⟨y, .head (step_singleton_iff.2 hx) hy, hspells⟩

end Grammar

end Automata
