import Automata.CommandLine.Command

/-!
# The program

Reads the description that a command asks for, performs the command, and prints what came of it.
-/

set_option autoImplicit false

namespace Automata

/-- The cause behind an error of the system. -/
def readFailure : IO.Error → ReadFailure
  | .noFileOrDirectory .. => .missing
  | .inappropriateType .. => .directory
  | e => .other e.toString

/-- The bytes of a file, or of the standard input. -/
def readBytes : Option String → IO ByteArray
  | some file => IO.FS.readBinFile file
  | none => do (← IO.getStdin).readBinToEnd

/-- The text of a file, or of the standard input. -/
def readText (source : Option String) : IO (Except ReadFailure String) := do
  try
    return Command.decode (← readBytes source)
  catch e =>
    return .error (readFailure e)

end Automata

/-- Runs the program. -/
def main (arguments : List String) : IO UInt32 := do
  match Automata.Command.ofArguments? arguments with
  | none =>
    IO.eprintln ("usage: automata [-v[=info|debug|trace]] "
      ++ "(show|accepts|determinize|dot|grammar|moore) …")
    return 2
  | some command =>
    match command.run (← Automata.readText command.source?) with
    | .success printed =>
      IO.print printed
      return 0
    | .failure printed cause =>
      IO.print printed
      IO.eprint (Automata.Command.report cause)
      return 1
