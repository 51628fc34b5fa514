import Automata.Symbol

/-!
# Grammars

A grammar has a root and, for each nonterminal, a set of alternatives that may take its place.

## What is here

* `Rule` and `Grammar`, with the questions that need no names: `alternatives`, `nonterminals`,
  `terminals`, `size`.
* `Grammar.Draft` — a grammar under construction.  Its root is the one that was set last, or else
  the left side of the first rule.
-/

set_option autoImplicit false

namespace Automata

open Std

/-- A rule: the symbol on its left may be replaced by the symbols on its right. -/
structure Rule where
  /-- The symbol that is replaced. -/
  left : Symbol
  /-- What takes its place; nothing at all for the empty alternative. -/
  right : List Symbol
deriving DecidableEq, Repr

namespace Rule

instance : Ord Rule := ⟨compareLex (compareOn left) (compareOn right)⟩

instance : TransOrd Rule :=
  inferInstanceAs (TransCmp (compareLex (compareOn left) (compareOn right)))

instance : LawfulEqOrd Rule where
  eq_of_compare {r s} h := by
    have h : compareLex (compareOn left) (compareOn right) r s = .eq := h
    simp only [compareLex_eq_eq, compareOn] at h
    cases r
    cases s
    simp only [mk.injEq]
    exact ⟨LawfulEqOrd.eq_of_compare h.1, LawfulEqOrd.eq_of_compare h.2⟩

end Rule

/-- A root and the rules. -/
structure Grammar where
  /-- The symbol from which everything is derived. -/
  root : Symbol
  /-- The rules, ordered by left side and then by right side. -/
  rules : FinSet Rule
deriving DecidableEq

namespace Grammar

/-- The left sides of all rules. -/
def leftSides (g : Grammar) : FinSet Symbol := g.rules.map Rule.left

/-- The symbols on the right of some rule. -/
def rightSymbols (g : Grammar) : List Symbol := g.rules.toList.flatMap Rule.right

/-- The nonterminals on either side of a rule, and the root. -/
def nonterminals (g : Grammar) : FinSet Symbol :=
  FinSet.ofList (g.root :: g.leftSides.toList ++ g.rightSymbols.filter Symbol.isNonterminal)

/-- The terminals of the rules. -/
def terminals (g : Grammar) : FinSet Symbol :=
  FinSet.ofList (g.rightSymbols.filter Symbol.isTerminal)

/-- The alternatives of a symbol, in order. -/
def alternatives (g : Grammar) (s : Symbol) : List (List Symbol) :=
  (g.rules.toList.filter fun r => r.left = s).map Rule.right

/-- Whether a symbol may be replaced by nothing. -/
def hasEmptyAlternative (g : Grammar) (s : Symbol) : Bool := (g.alternatives s).any List.isEmpty

/-- The number of rules. -/
def size (g : Grammar) : Nat := g.rules.size

/-! ## Grammars under construction -/

/-- A grammar under construction. -/
structure Draft where
  /-- The root, once there is one. -/
  root : Option Symbol := none
  /-- The rules so far. -/
  rules : FinSet Rule := ∅
deriving DecidableEq

namespace Draft

/-- The draft with another root, which must be a nonterminal; the table is there to name a symbol
that is not. -/
def setRoot (d : Draft) (table : SymbolTable) (s : Symbol) : Except Error Draft :=
  if s.isNonterminal then .ok { d with root := some s }
  else do
    let name ← table.nameOf s
    throw (.unsupportedRule name "the root must be a nonterminal")

/-- The draft with one more rule, whose left side must be a nonterminal. -/
def addRule (d : Draft) (table : SymbolTable) (r : Rule) : Except Error Draft :=
  if r.left.isNonterminal then
    .ok { root := some (d.root.getD r.left), rules := d.rules.insert r }
  else do
    let name ← table.nameOf r.left
    throw (.unsupportedRule s!"{name} -> ..." "the left-hand side must be a nonterminal")

/-- The finished grammar, if there is a root. -/
def finish (d : Draft) : Except Error Grammar :=
  match d.root with
  | none => .error .missingStart
  | some root => .ok ⟨root, d.rules⟩

end Draft

end Grammar

end Automata
