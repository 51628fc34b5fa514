import Automata.Error

/-!
# Symbols of grammars

A symbol is a terminal or a nonterminal.  Symbols are kept in a table, which gives each kind and
name one number, in the order in which they are first asked for; a symbol itself is no more than
that number and its kind, and means something only together with its table.

## What is here

* `Symbol`, ordered by number.
* `SymbolTable`, with `intern` (which adds a symbol that is not there), `lookup` and `nameOf`.
* `Interning` — computations that may add symbols and may fail; symbols added before a failure stay.
-/

set_option autoImplicit false

namespace Automata

open Std

/-- The two kinds of symbols. -/
inductive SymbolKind where
  /-- Occurs in the words of the language. -/
  | terminal
  /-- Is replaced by rules. -/
  | nonterminal
deriving DecidableEq, Repr

/-- Terminals come before nonterminals. -/
def SymbolKind.rank : SymbolKind → Nat
  | terminal => 0
  | nonterminal => 1

/-- A symbol of some table. -/
structure Symbol where
  /-- The place in the table. -/
  number : Nat
  /-- The kind. -/
  kind : SymbolKind
deriving DecidableEq, Repr

namespace Symbol

/-- Whether the symbol is a terminal. -/
def isTerminal (s : Symbol) : Bool := decide (s.kind = .terminal)

/-- Whether the symbol is a nonterminal. -/
def isNonterminal (s : Symbol) : Bool := decide (s.kind = .nonterminal)

instance : Ord Symbol := ⟨compareLex (compareOn number) (compareOn fun s => s.kind.rank)⟩

instance : TransOrd Symbol :=
  inferInstanceAs (TransCmp (compareLex (compareOn number) (compareOn fun s => s.kind.rank)))

instance : LawfulEqOrd Symbol where
  eq_of_compare {s t} h := by
    have h : compareLex (compareOn number) (compareOn fun s : Symbol => s.kind.rank) s t = .eq := h
    simp only [compareLex_eq_eq, compareOn] at h
    obtain ⟨m, j⟩ := s
    obtain ⟨n, k⟩ := t
    have hk : j.rank = k.rank := LawfulEqOrd.eq_of_compare h.2
    have hn : m = n := LawfulEqOrd.eq_of_compare h.1
    cases j <;> cases k <;> simp_all [SymbolKind.rank]

end Symbol

/-- A table of symbols: the kind and name of each, in the order of their numbers. -/
structure SymbolTable where
  /-- Kinds and names. -/
  entries : List (SymbolKind × String) := []
deriving DecidableEq, Repr

namespace SymbolTable

/-- The number of symbols. -/
def size (t : SymbolTable) : Nat := t.entries.length

/-- The symbol of that kind and name, if the table has it. -/
def find? (t : SymbolTable) (kind : SymbolKind) (name : String) : Option Symbol :=
  (t.entries.idxOf? (kind, name)).map fun n => ⟨n, kind⟩

/-- The symbol of that name, a terminal before a nonterminal. -/
def lookup (t : SymbolTable) (name : String) : Except Error Symbol :=
  if name.isEmpty then .error .emptySymbolName
  else
    match t.find? .terminal name <|> t.find? .nonterminal name with
    | some s => .ok s
    | none => .error (.unknownSymbol name)

/-- The name of a symbol of this table. -/
def nameOf (t : SymbolTable) (s : Symbol) : Except Error String :=
  match t.entries[s.number]? with
  | some (_, name) => .ok name
  | none => .error .foreignSymbol

/-- The names of the symbols of one kind, in the order of their numbers. -/
def names (t : SymbolTable) (kind : SymbolKind) : List String :=
  t.entries.filterMap fun (k, name) => if k = kind then some name else none

/-- The names of all symbols, as text. -/
def render (t : SymbolTable) : String :=
  let terminals := t.names .terminal
  let nonterminals := t.names .nonterminal
  let listed (names : List String) : String := "\x7b " ++ ", ".intercalate names ++ " \x7d"
  s!"symbol pool: {terminals.length} terminals and {nonterminals.length} nonterminals\n"
    ++ "  terminals    = " ++ listed terminals ++ "\n"
    ++ "  nonterminals = " ++ listed nonterminals

end SymbolTable

/-- Computations that may add symbols to a table and may fail. -/
abbrev Interning := EStateM Error SymbolTable

/-- The symbol of that kind and name, which is added if the table does not have it. -/
def intern (kind : SymbolKind) (name : String) : Interning Symbol := do
  if name.isEmpty then throw .emptySymbolName
  let t ← get
  match t.find? kind name with
  | some s => return s
  | none =>
    set (⟨t.entries ++ [(kind, name)]⟩ : SymbolTable)
    return ⟨t.size, kind⟩

end Automata
