import Automata.Description.Basic
import Automata.Grammar.Printer

/-!
# Grammars and automata

A right-linear grammar is an automaton in disguise: its nonterminals are the states, its root is
the start, and a rule `A -> t B` is an edge from `A` to `B` along `t`.

## What is here

* `Grammar.toNFA` — the automaton of a grammar.  A rule `A -> t` leads to an additional final state,
  and the empty alternative, which only the root may have, makes the root final.
* `Grammar.ofAutomaton` — the grammar of an automaton's edges.  Final states leave no trace in it.
-/

set_option autoImplicit false

namespace Automata

namespace Grammar

/-- A rule as text. -/
def ruleText (table : SymbolTable) (r : Rule) : Except Error String := do
  return (← table.nameOf r.left) ++ " -> " ++ (← namesText table r.right)

/-- The failure of a rule that no automaton can follow. -/
def unsupported {α : Type} (table : SymbolTable) (r : Rule) (reason : String) :
    Except Error α := do
  throw (.unsupportedRule (← ruleText table r) reason)

/-- The tape symbol that a terminal stands for: the only character of its name. -/
def tapeSymbol (table : SymbolTable) (r : Rule) (terminal : Symbol) : Except Error Char := do
  match (← table.nameOf terminal).toList with
  | [a] => return a
  | _ => unsupported table r "terminals must consist of a single character"

/-- What a rule says about the automaton of a grammar with this root, in which `accept` is the
additional final state. -/
def statementsOfRule (table : SymbolTable) (root : Symbol) (accept : State) (r : Rule) :
    Except Error (List Statement) := do
  let q ← table.nameOf r.left
  match r.right with
  | [] =>
    if r.left = root then return [.final q] else throw (.misplacedEmptyRule q)
  | [t] =>
    if t.isTerminal then
      let a ← tapeSymbol table r t
      return [.final accept, .edge ⟨q, a, accept⟩]
    else unsupported table r "only A -> t B, A -> t and A -> eps are right-linear"
  | [t, n] =>
    if t.isTerminal && n.isNonterminal then
      let a ← tapeSymbol table r t
      return [.edge ⟨q, a, ← table.nameOf n⟩]
    else unsupported table r "only A -> t B, A -> t and A -> eps are right-linear"
  | _ => unsupported table r "only A -> t B, A -> t and A -> eps are right-linear"

/-- The automaton that accepts what the grammar derives. -/
def toNFA (g : Grammar) (table : SymbolTable) : Except Error NFA := do
  let states ← g.nonterminals.toList.mapM table.nameOf
  let root ← table.nameOf g.root
  let accept := unused states "FIN"
  let statements ← g.rules.toList.mapM (statementsOfRule table g.root accept)
  (Description.empty.addAll (.start root :: states.map .state ++ statements.flatten)).toNFA

/-- The rule of an edge. -/
def ruleOfEdge (e : Edge) : Interning Rule := do
  let left ← intern .nonterminal e.source
  let t ← intern .terminal (String.singleton e.symbol)
  let n ← intern .nonterminal e.target
  return ⟨left, [t, n]⟩

/-- The grammar whose root is the start of the automaton and whose rules are its edges. -/
def ofAutomaton (A : NFA) : Interning Grammar := do
  let root ← intern .nonterminal A.start
  return ⟨root, FinSet.ofList (← A.edges.toList.mapM ruleOfEdge)⟩

end Grammar

end Automata
