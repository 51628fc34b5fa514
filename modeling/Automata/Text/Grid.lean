import Automata.Text.ControlSequence
import Automata.Text.Style

/-!
# Tables in a frame

Rows of cells are drawn in a frame with round corners.  A column is as wide as the widest line in
it and a row as high as its highest cell; cells are filled up with blanks on the right and below.
A line separates the first row from the others.
-/

set_option autoImplicit false

namespace Automata

namespace Text

/-- A cell as its lines. -/
abbrev Cell := List (List Char)

/-- The cell of a text, which is cut at every line feed. -/
def Cell.ofString (s : String) : Cell := styledLines s.toList

/-- The number of columns of the widest line of a cell. -/
def Cell.width (cell : Cell) : Nat := (cell.map columns).foldr max 0

/-- A line, filled up with blanks and with one blank on each side. -/
def padded (n : Nat) (line : List Char) : String :=
  String.ofList (' ' :: line ++ List.replicate (n - columns line) ' ' ++ [' '])

/-- The width of every column of a list of rows. -/
def columnWidths (rows : List (List Cell)) : List Nat :=
  rows.foldr (fun row widths =>
    let own := row.map Cell.width
    List.zipWith max own widths ++ own.drop widths.length ++ widths.drop own.length) []

/-- The lines of a row between the bars of the frame. -/
def rowLines (widths : List Nat) (row : List Cell) : List String :=
  let height := (row.map List.length).foldr max 0
  (List.range height).map fun i =>
    let texts := List.zipWith (fun n cell => padded n (cell[i]?.getD [])) widths row
    "│" ++ "│".intercalate texts ++ "│"

/-- A horizontal line of the frame, with its ends and its crossings. -/
def ruler (left crossing right : String) (widths : List Nat) : String :=
  left ++ crossing.intercalate (widths.map fun n => String.ofList (List.replicate (n + 2) '─'))
    ++ right

/-- The drawing of a table with the given heading and rows. -/
def grid (heading : List String) (rows : List (List String)) : String :=
  let cells := (heading :: rows).map fun row => row.map Cell.ofString
  let widths := columnWidths cells
  let body := cells.map (rowLines widths)
  let separated :=
    match body with
    | [] => []
    | first :: [] => first
    | first :: rest => first ++ ruler "├" "┼" "┤" widths :: rest.flatten
  "\n".intercalate (ruler "╭" "┬" "╮" widths :: separated ++ [ruler "╰" "┴" "╯" widths])

end Text

end Automata
