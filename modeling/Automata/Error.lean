import Automata.Relation

/-!
# What can go wrong

Every failure of the library is one of the causes below.  `Error.message` is the only place that
words them.
-/

set_option autoImplicit false

namespace Automata

/-- Why a text could not be read. -/
inductive ReadFailure where
  /-- There is no file of that name. -/
  | missing
  /-- The name belongs to a directory. -/
  | directory
  /-- The content is not UTF-8. -/
  | invalidText
  /-- Anything else that the system reports. -/
  | other (text : String)
deriving DecidableEq, Repr

/-- The wording of a read failure. -/
def ReadFailure.message : ReadFailure → String
  | .missing => "No such file or directory (os error 2)"
  | .directory => "Is a directory (os error 21)"
  | .invalidText => "stream did not contain valid UTF-8"
  | .other text => text

/-- The causes of failure. -/
inductive Error where
  /-- A line, counted from one, of a described automaton or grammar does not fit its format. -/
  | malformed (line : Nat) (content reason : String)
  /-- A deterministic automaton was asked for, but `state` has several targets on `symbol`. -/
  | ambiguous (state : State) (symbol : Char) (targets : List State)
  /-- No start state, or no root, was named. -/
  | missingStart
  /-- The outputs of a Moore machine leave out a reachable state. -/
  | missingOutput (state : State)
  /-- A nonterminal other than the root has an empty alternative. -/
  | misplacedEmptyRule (nonterminal : String)
  /-- A rule has a form that no automaton can follow. -/
  | unsupportedRule (rule reason : String)
  /-- There is no symbol of that name. -/
  | unknownSymbol (name : String)
  /-- A symbol was given the empty name. -/
  | emptySymbolName
  /-- A symbol is not in the table it was looked up in. -/
  | foreignSymbol
  /-- A description could not be read from where it is kept. -/
  | unreadable (cause : ReadFailure)
deriving DecidableEq, Repr

/-- The wording of a failure. -/
def Error.message : Error → String
  | malformed line content reason =>
    s!"malformed specification in line {line} \"{content}\": {reason}"
  | ambiguous state symbol targets =>
    let count := targets.length
    s!"state {state} has {count} successors on '{symbol}', "
      ++ "but a deterministic automaton allows at most one"
  | missingStart => "no start state has been set"
  | missingOutput state => s!"no output is defined for reachable state {state}"
  | misplacedEmptyRule nonterminal =>
    s!"epsilon rule for nonterminal {nonterminal}, which is not the root"
  | unsupportedRule rule reason => s!"rule {rule} is not right-linear: {reason}"
  | unknownSymbol name => s!"no symbol named \"{name}\""
  | emptySymbolName => "invalid empty string for symbol name"
  | foreignSymbol => "symbol does not belong to this table"
  | unreadable cause =>
    let text := cause.message
    s!"could not read specification: {text}"

end Automata
