import Automata.Text.Joining

/-!
# Control sequences

A terminal does not show every character that it is sent: the escape character starts a sequence
that sets a colour, moves the cursor or names a link.  Such a sequence takes no column.  A text is
read by a machine that says of each character how much of it shows and whether it ends a sequence.

## What is here

* `Reading`, `Reading.read` — where the machine stands, and its steps.
* `Progress`, `fragments` — what is read since the last sequence, and a text as shown pieces and
  sequences.
* `columns` — the columns that the shown pieces take.
-/

set_option autoImplicit false

namespace Automata

namespace Text

/-- The characters at the front of a text, as many as fit in `n` bytes. -/
def fitting : Nat → List Char → List Char
  | _, [] => []
  | n, c :: l => if c.utf8Size ≤ n then c :: fitting (n - c.utf8Size) l else []

/-! ## The machine -/

/-- Where a reader of control sequences stands.  In a sequence with parameters it counts the
`separators` between them and the `marks`: the characters around the parameters that choose a
meaning for the last one. -/
inductive Reading
  /-- Outside all sequences. -/
  | ground
  /-- Behind the escape character. -/
  | escape
  /-- Behind the escape character and some marks. -/
  | escapeMarks
  /-- Behind the bracket that opens a sequence with parameters. -/
  | opened
  /-- Among the parameters. -/
  | parameters (separators marks : Nat)
  /-- Among the marks behind the parameters. -/
  | marked (separators marks : Nat)
  /-- In a sequence with parameters that is not well formed. -/
  | astray
  /-- In a command to the terminal as a whole, such as a link. -/
  | command
  /-- At the head of a string for a device. -/
  | head
  /-- Among the parameters of a string for a device. -/
  | headParameters
  /-- Among the marks of a string for a device. -/
  | headMarks
  /-- In a string for a device or a program. -/
  | payload
deriving DecidableEq, Repr

/-- What a character does in a text: how many of its bytes show, of how many it is not decided yet,
and whether it ends a sequence. -/
structure Effect where
  /-- The bytes that show. -/
  shown : Nat := 0
  /-- The bytes that show only if no sequence ends behind them. -/
  held : Nat := 0
  /-- Whether a sequence ends. -/
  ends : Bool := false
deriving DecidableEq, Repr

namespace Effect

/-- The character shows. -/
def shows (c : Char) : Effect := { shown := c.utf8Size }

/-- It is not decided yet whether the character shows. -/
def holds (c : Char) : Effect := { held := c.utf8Size }

/-- The character ends a sequence. -/
def finishes : Effect := { ends := true }

end Effect

namespace Reading

/-- The step behind the escape character. -/
def readEscape (c : Char) : Reading × Effect :=
  if c.toNat < 0x20 then (.escape, .shows c)
  else if c.toNat < 0x30 then (.escapeMarks, .holds c)
  else if c = '[' then (.opened, .holds c)
  else if c = ']' then (.command, .holds c)
  else if c = 'P' then (.head, .holds c)
  else if c = 'X' ∨ c = '^' ∨ c = '_' then (.payload, .holds c)
  else if c.toNat < 0x7F then (.ground, .finishes)
  else (.escape, .holds c)

/-- The last character of a sequence with parameters ends it if there are at most 32 parameters and
at most one mark.  A sequence with more of them has no meaning. -/
def readLast (separators marks : Nat) (c : Char) : Reading × Effect :=
  (.ground, if separators < 32 ∧ marks ≤ 1 then .finishes else .holds c)

/-- The step in a sequence with parameters.  A mark that is out of place leads to `aside`. -/
def readParameter (here aside : Reading) (separators marks : Nat) (c : Char) : Reading × Effect :=
  if c.toNat < 0x20 then (here, .shows c)
  else if c.toNat < 0x30 then (.marked separators (marks + 1), .holds c)
  else if c.toNat < 0x3A then (.parameters separators marks, .holds c)
  else if c.toNat < 0x3C then (.parameters (separators + 1) marks, .holds c)
  else if c.toNat < 0x40 then (aside, .holds c)
  else if c.toNat < 0x7F then readLast separators marks c
  else (here, .holds c)

/-- The step at the head of a string for a device.  A mark for the parameters leads to `aside`. -/
def readHead (here aside : Reading) (c : Char) : Reading × Effect :=
  if c.toNat < 0x20 then (here, .holds c)
  else if c.toNat < 0x30 then (.headMarks, .holds c)
  else if c.toNat < 0x3C then (.headParameters, .holds c)
  else if c.toNat < 0x40 then (aside, .holds c)
  else if c.toNat < 0x7F then (.payload, .holds c)
  else (here, .holds c)

/-- Whether a byte behind the end of a string is a control of its own. -/
def isControlByte (b : UInt8) : Bool := (0x80 ≤ b && b ≤ 0x9A && b != 0x90) || b == 0x9C

/-- The step in a string for a device or a program.  The byte 9C ends the string also in the midst
of a character; of the bytes behind it the controls show. -/
def readPayload (c : Char) : Reading × Effect :=
  let encoded := String.utf8EncodeChar c
  match encoded.dropWhile (· != 0x9C) with
  | [] => (.payload, .holds c)
  | _ :: rest =>
    let shown := rest.countP isControlByte
    (.ground, { shown := shown, held := encoded.length - shown })

/-- The step for a character that has no meaning of its own in every place. -/
def readOrdinary (r : Reading) (c : Char) : Reading × Effect :=
  match r with
  | .ground => (.ground, .shows c)
  | .escape => readEscape c
  | .escapeMarks =>
    if c.toNat < 0x20 then (.escapeMarks, .shows c)
    else if 0x30 ≤ c.toNat ∧ c.toNat < 0x7F then (.ground, .finishes)
    else (.escapeMarks, .holds c)
  | .opened => readParameter .opened (.parameters 0 1) 0 0 c
  | .parameters s m => readParameter (.parameters s m) .astray s m c
  | .marked s m =>
    if c.toNat < 0x20 then (.marked s m, .shows c)
    else if c.toNat < 0x30 then (.marked s (m + 1), .holds c)
    else if c.toNat < 0x40 then (.astray, .holds c)
    else if c.toNat < 0x7F then readLast s m c
    else (.marked s m, .holds c)
  | .astray =>
    if c.toNat < 0x20 then (.astray, .shows c)
    else if 0x40 ≤ c.toNat ∧ c.toNat < 0x7F then (.ground, .holds c)
    else (.astray, .holds c)
  | .command => if c = '\x07' then (.ground, .finishes) else (.command, .holds c)
  | .head => readHead .head .headParameters c
  | .headParameters => readHead .headParameters .payload c
  | .headMarks =>
    if 0x30 ≤ c.toNat ∧ c.toNat < 0x7F then (.payload, .holds c) else (.headMarks, .holds c)
  | .payload => readPayload c

/-- One step.  The escape character starts a new sequence from everywhere, and two controls break
every sequence off and show; a command to the terminal ends with them. -/
def read (r : Reading) (c : Char) : Reading × Effect :=
  if c = '\x1b' then (.escape, if r = .command then .finishes else .holds c)
  else if c = '\x18' ∨ c = '\x1a' then
    (.ground, { Effect.shows c with ends := decide (r = .command) })
  else r.readOrdinary c

end Reading

/-! ## Pieces -/

/-- A piece of a text. -/
inductive Fragment
  /-- Characters that show. -/
  | shown (l : List Char)
  /-- A control sequence. -/
  | sequence (l : List Char)
deriving DecidableEq, Repr

/-- What is read since the last sequence.  The lists have the last character first. -/
structure Progress where
  /-- Where the reader stands. -/
  reading : Reading := .ground
  /-- The characters. -/
  piece : List Char := []
  /-- The characters from the last escape character on. -/
  begun : List Char := []
  /-- The number of bytes that show. -/
  shown : Nat := 0
  /-- The number of bytes from the last escape character on that are not decided. -/
  held : Nat := 0

namespace Progress

/-- One character more, with its effect. -/
def push (p : Progress) (c : Char) (r : Reading) (e : Effect) : Progress :=
  let fresh := c = '\x1b'
  { reading := r
    piece := c :: p.piece
    begun := if fresh then [c] else c :: p.begun
    shown := p.shown + e.shown
    held := if fresh then e.held else p.held + e.held }

/-- The characters that show if `n` bytes do.  Shown bytes are counted wherever they stand, but
taken from the front, so a control within a sequence brings a character before it into view.  A
piece in which nothing shows for certain does not show at all. -/
def text (p : Progress) (n : Nat) : List Fragment :=
  if p.shown = 0 then [] else [.shown (fitting n p.piece.reverse)]

end Progress

/-- The pieces of a text behind what is read already. -/
def fragmentsFrom (p : Progress) : List Char → List Fragment
  | [] => p.text (p.shown + p.held)
  | c :: l =>
    let (r, e) := p.reading.read c
    let next := p.push c r e
    if e.ends then
      next.text next.shown ++ .sequence (c :: p.begun).reverse :: fragmentsFrom { reading := r } l
    else fragmentsFrom next l

/-- The pieces of a text.  A sequence that the text breaks off is part of the piece before it. -/
def fragments (l : List Char) : List Fragment := fragmentsFrom {} l

/-- The columns that a piece takes. -/
def Fragment.columns : Fragment → Nat
  | .shown l => width l
  | .sequence _ => 0

/-- The number of columns that a line takes in a terminal. -/
def columns (l : List Char) : Nat := (fragments l).foldr (fun f n => f.columns + n) 0

end Text

end Automata
