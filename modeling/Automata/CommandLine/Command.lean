import Automata.CommandLine.Arguments
import Automata.DFA.Minimization
import Automata.Description.Reader
import Automata.Diagram
import Automata.Grammar.Conversion
import Automata.Grammar.Reader
import Automata.Renumbering
import Automata.TransitionTable

/-!
# Commands

The program reads one description, from a file or from its standard input, and does one thing with
it.

## What is here

* `Command`, `Command.ofArguments?` — what the program is asked to do.
* `Command.source?` — the file that the description is in.
* `Command.perform` — what the program prints, given the text of the description; what was printed
  before a failure stays printed.
-/

set_option autoImplicit false

namespace Automata

open Text

/-- What the program is asked to do. -/
inductive Command where
  /-- Print the transition table of an automaton. -/
  | table (file : Option String)
  /-- Say for each tape whether the automaton accepts it. -/
  | accept (tapes : List String) (file : Option String)
  /-- Print a deterministic automaton for the same language, and make it minimal or number its
  states if asked to. -/
  | determinize (minimize renumber : Bool) (file : Option String)
  /-- Print the drawing of an automaton. -/
  | draw (name : String) (file : Option String)
  /-- Print a grammar and its automaton. -/
  | grammar (file : Option String)
  /-- Print a Moore machine with the given outputs, and what it puts out for a tape. -/
  | moore (outputs : List String) (tape : String) (file : Option String)
deriving DecidableEq, Repr

namespace Command

/-- The option for the amount of logging, which every command understands. -/
def verbosity : Switch := ⟨'v', "verbosity", .choice "info" ["debug", "trace"], false⟩

/-- The option for the file that the description is in. -/
def fileSwitch : Switch := ⟨'f', "file", .value, false⟩

/-- The only operand, which names a file; there may be none. -/
def fileOperand : List String → Option (Option String)
  | [] => some none
  | [file] => some (some file)
  | _ => none

/-- Reads the arguments after the name of a command. -/
def ofName? (name : String) (rest : List String) : Option Command :=
  match name with
  | "show" => do
    let a ← Arguments.read [verbosity] rest
    return .table (← fileOperand a.operands)
  | "accepts" => do
    let a ← Arguments.read [verbosity, fileSwitch] rest
    if a.operands.isEmpty then none else return .accept a.operands (a.value? "file")
  | "determinize" => do
    let a ← Arguments.read
      [verbosity, ⟨'m', "minimize", .flag, false⟩, ⟨'r', "rename", .flag, false⟩] rest
    return .determinize (a.has "minimize") (a.has "rename") (← fileOperand a.operands)
  | "dot" => do
    let a ← Arguments.read [verbosity, ⟨'n', "name", .value, false⟩] rest
    return .draw ((a.value? "name").getD "A") (← fileOperand a.operands)
  | "grammar" => do
    let a ← Arguments.read [verbosity] rest
    return .grammar (← fileOperand a.operands)
  | "moore" => do
    let a ← Arguments.read [verbosity, fileSwitch, ⟨'o', "output", .value, true⟩] rest
    match a.operands with
    | [tape] =>
      if a.has "output" then return .moore (a.values "output") tape (a.value? "file") else none
    | _ => none
  | _ => none

/-- Reads all arguments of the program: options that every command understands, the name of a
command, and the arguments of the command. -/
def ofArguments? (arguments : List String) : Option Command :=
  match arguments.span fun a => a.toList.head? = some '-' with
  | (_, []) => none
  | (options, name :: rest) => do
    let before ← Arguments.read [verbosity] options
    if before.operands.isEmpty && !options.contains "--" then ofName? name rest else none

/-- The file that the description is in; without one it is read from the standard input. -/
def source? : Command → Option String
  | table file => file
  | accept _ file => file
  | determinize _ _ file => file
  | draw _ file => file
  | grammar file => file
  | moore _ _ file => file

/-! ## Performing a command -/

/-- Computations that print text and may fail. -/
abbrev Printing := EStateM Error String

/-- Prints a line. -/
def printLine (line : String) : Printing Unit := modify fun printed => printed ++ line ++ "\n"

/-- Text in one of the colours of a terminal. -/
def coloured (colour : Nat) (text : String) : String := s!"\x1b[{colour}m{text}\x1b[39m"

/-- A verdict on a tape. -/
def verdict (accepted : Bool) : String :=
  if accepted then coloured 32 "accepted" else coloured 31 "rejected"

/-- Reads an output that is given as a state and a symbol with `=` between them; the first `=`
counts. -/
def outputOfText (text : String) : Except Error (State × Char) :=
  let (state, rest) := text.toList.span (· ≠ '=')
  match rest with
  | [_, c] =>
    if state.isEmpty then .error (malformedOutput text) else .ok (String.ofList state, c)
  | _ => .error (malformedOutput text)
where
  /-- The failure of an output that is not given so. -/
  malformedOutput (text : String) : Error :=
    .malformed 1 text "expected an assignment of the form state=symbol"

/-- The text of the description, unless it could not be read. -/
def textOf (input : Except ReadFailure String) : Except Error String :=
  input.mapError .unreadable

/-- The automaton that the text describes. -/
def recognizerOf (input : Except ReadFailure String) : Except Error Recognizer := do
  (← Description.ofText (← textOf input)).toRecognizer

/-- Performs a command on the text of a description. -/
def perform (command : Command) (input : Except ReadFailure String) : Printing Unit :=
  match command with
  | table _ => do
    printLine (← ofExcept (recognizerOf input)).render
  | accept tapes _ => do
    let automaton ← ofExcept (recognizerOf input)
    tapes.forM fun tape => do
      let shown := quoted '"' tape.toList
      let result := verdict (automaton.accepts tape.toList)
      printLine s!"{shown}: {result}"
  | determinize minimize renumber _ => do
    let D := (← ofExcept (recognizerOf input)).toDFA
    let D := if minimize then D.minimize else D
    let D := if renumber then D.renumber else D
    printLine D.render
  | draw name _ => do
    printLine ((← ofExcept (recognizerOf input)).toNFA.diagram.render name)
  | grammar _ => do
    let text ← ofExcept (textOf input)
    match (Grammar.ofText text).run {} with
    | .error e _ => throw e
    | .ok g symbols => do
      printLine (← ofExcept (g.render symbols))
      printLine (← ofExcept (g.toNFA symbols)).render
  | moore outputs tape _ => do
    let outputs ← ofExcept (outputs.mapM outputOfText)
    let text ← ofExcept (textOf input)
    let machine ← ofExcept ((← ofExcept (Description.ofText text)).toMoore outputs)
    printLine machine.render
    match machine.outputs tape.toList with
    | .complete l =>
      let shown := quoted '"' l
      let result := verdict (machine.accepts tape.toList)
      printLine s!"{shown} {result}"
    | .stuck l =>
      let shown := quoted '"' l
      let result := coloured 33 "stuck"
      printLine s!"{shown} {result}"

/-! ## The whole program -/

/-- How a run of the program ends. -/
inductive Outcome where
  /-- Everything was done. -/
  | success (printed : String)
  /-- Something failed after some text was printed. -/
  | failure (printed : String) (cause : Error)
deriving DecidableEq, Repr

/-- Runs a command on the text of a description. -/
def run (command : Command) (input : Except ReadFailure String) : Outcome :=
  match (command.perform input).run "" with
  | .ok _ printed => .success printed
  | .error cause printed => .failure printed cause

/-- The line in which a failure is reported. -/
def report (cause : Error) : String :=
  let heading := coloured 31 "error"
  let message := cause.message
  s!"{heading}: {message}\n"

/-- The text that some bytes encode. -/
def decode (bytes : ByteArray) : Except ReadFailure String :=
  match String.fromUTF8? bytes with
  | some text => .ok text
  | none => .error .invalidText

end Command

end Automata
