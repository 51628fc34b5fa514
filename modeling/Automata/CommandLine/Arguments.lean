/-!
# Arguments of a command line

Arguments are options, which begin with a dash, and operands.  An option has a short name of one
character and a long name; short names may be written together behind one dash.  After `--` all
arguments are operands.

## What is here

* `Switch` — an option that is understood, and what may be given with it.
* `Arguments.read` — sorts arguments into options and operands, or refuses them.
-/

set_option autoImplicit false

namespace Automata

/-- What is given with an option. -/
inductive SwitchKind where
  /-- Nothing. -/
  | flag
  /-- A value, attached or in the next argument. -/
  | value
  /-- One of some values, attached by `=`; the first of them if nothing is attached. -/
  | choice (first : String) (others : List String)
deriving DecidableEq, Repr

/-- An option that is understood. -/
structure Switch where
  /-- The name behind one dash. -/
  short : Char
  /-- The name behind two dashes. -/
  long : String
  /-- What is given with it. -/
  kind : SwitchKind
  /-- Whether it may be given more than once. -/
  repeatable : Bool := false
deriving DecidableEq, Repr

/-- Options, each under its long name and with its value, and operands, all in the order in which
they were given. -/
structure Arguments where
  /-- The options. -/
  options : List (String × String) := []
  /-- The operands. -/
  operands : List String := []
deriving DecidableEq, Repr

namespace Arguments

/-- The options of one argument, and the one among them that still needs a value. -/
abbrev Reading := List (String × String) × Option Switch

/-- The option that stands first in an argument, with a value if one is attached to it. -/
def readOne (switch : Switch) (attached : Option String) : Option Reading :=
  match switch.kind, attached with
  | .flag, none => some ([(switch.long, "")], none)
  | .flag, some _ => none
  | .value, none => some ([], some switch)
  | .value, some v => some ([(switch.long, v)], none)
  | .choice first _, none => some ([(switch.long, first)], none)
  | .choice first others, some v =>
    if v = first ∨ v ∈ others then some ([(switch.long, v)], none) else none

/-- Reads short options that are written together. -/
def readShort (switches : List Switch) : List Char → Option Reading
  | [] => some ([], none)
  | c :: rest =>
    match switches.find? fun s => s.short = c with
    | none => none
    | some switch =>
      match switch.kind, rest with
      | .flag, _ => do
        let (options, awaiting) ← readShort switches rest
        return ((switch.long, "") :: options, awaiting)
      | _, '=' :: v => readOne switch (some (String.ofList v))
      | .value, [] => readOne switch none
      | .value, _ => readOne switch (some (String.ofList rest))
      | .choice first _, _ => do
        let (options, awaiting) ← readShort switches rest
        return ((switch.long, first) :: options, awaiting)

/-- Reads a long option: a name, which a value may follow behind the first `=`. -/
def readLong (switches : List Switch) (text : List Char) : Option Reading :=
  let name := String.ofList (text.takeWhile (· ≠ '='))
  let attached :=
    match text.dropWhile (· ≠ '=') with
    | [] => none
    | _ :: v => some (String.ofList v)
  match switches.find? fun s => s.long = name with
  | none => none
  | some switch => readOne switch attached

/-- What an argument is. -/
inductive ArgumentKind where
  /-- The mark after which all arguments are operands. -/
  | separator
  /-- Options, unless they were refused. -/
  | options (reading : Option Reading)
  /-- An operand, or the value of an option before it. -/
  | operand
deriving DecidableEq, Repr

/-- Tells what an argument is.  A single dash is an operand. -/
def kindOf (switches : List Switch) (argument : String) : ArgumentKind :=
  match argument.toList with
  | ['-', '-'] => .separator
  | '-' :: '-' :: text => .options (readLong switches text)
  | ['-'] => .operand
  | '-' :: text => .options (readShort switches text)
  | _ => .operand

/-- The arguments with further options in front. -/
def push (options : List (String × String)) (arguments : Arguments) : Arguments :=
  { arguments with options := options ++ arguments.options }

/-- Sorts arguments.  They are refused if an option is not understood or lacks its value. -/
def sort (switches : List Switch) : List String → Option Arguments
  | [] => some {}
  | argument :: rest =>
    match kindOf switches argument with
    | .separator => some { operands := rest }
    | .operand => do
      let arguments ← sort switches rest
      return { arguments with operands := argument :: arguments.operands }
    | .options none => none
    | .options (some (options, none)) => do return (← sort switches rest).push options
    | .options (some (options, some switch)) =>
      match rest with
      | [] => none
      | value :: rest =>
        match kindOf switches value with
        | .operand => do
          return (← sort switches rest).push (options ++ [(switch.long, value)])
        | _ => none

/-- Whether no option is given twice that must not be. -/
def withoutRepetition (switches : List Switch) (arguments : Arguments) : Bool :=
  switches.all fun s =>
    s.repeatable || decide ((arguments.options.countP fun o => o.1 = s.long) ≤ 1)

/-- Sorts arguments, and refuses them also if an option is repeated that must not be. -/
def read (switches : List Switch) (arguments : List String) : Option Arguments := do
  let arguments ← sort switches arguments
  if arguments.withoutRepetition switches then some arguments else none

/-- Whether an option was given. -/
def has (arguments : Arguments) (long : String) : Bool :=
  arguments.options.any fun o => o.1 = long

/-- All values of an option. -/
def values (arguments : Arguments) (long : String) : List String :=
  (arguments.options.filter fun o => o.1 = long).map Prod.snd

/-- The value of an option, if it was given. -/
def value? (arguments : Arguments) (long : String) : Option String := (arguments.values long).head?

end Arguments

end Automata
