import Automata.Grammar.Basic

/-!
# Writing a grammar as text

The rules of the root come first, the others follow in the order of their left sides.  What is
written can be read again by `Grammar.ofText`.
-/

set_option autoImplicit false

namespace Automata

namespace Grammar

/-- The names of symbols, with blanks between them. -/
def namesText (table : SymbolTable) (symbols : List Symbol) : Except Error String := do
  return " ".intercalate (← symbols.mapM table.nameOf)

/-- A right side as text; the empty one is written `eps`. -/
def rightSideText (table : SymbolTable) (right : List Symbol) : Except Error String :=
  if right.isEmpty then .ok "eps" else namesText table right

/-- The line of one nonterminal. -/
def lineText (g : Grammar) (table : SymbolTable) (left : Symbol) : Except Error String := do
  let name ← table.nameOf left
  let rights ← (g.alternatives left).mapM (rightSideText table)
  return name ++ " -> " ++ " | ".intercalate rights

/-- The left sides in the order in which they are written. -/
def lineOrder (g : Grammar) : List Symbol :=
  let lefts := g.leftSides.toList
  lefts.filter (· = g.root) ++ lefts.filter (· ≠ g.root)

/-- The whole grammar as text. -/
def render (g : Grammar) (table : SymbolTable) : Except Error String := do
  return "\n".intercalate (← g.lineOrder.mapM (g.lineText table))

end Grammar

end Automata
