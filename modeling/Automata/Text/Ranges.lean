/-!
# Classes of characters

A class of characters is given by closed ranges of code points, in ascending order.  The classes
are properties of a character standard, so they are data; all that is asked of a class is whether
a character belongs to it.
-/

set_option autoImplicit false

namespace Automata

namespace Text

/-- Whether a character lies in one of the given ranges. -/
def within (ranges : List (Nat × Nat)) (c : Char) : Bool :=
  ranges.any fun (lo, hi) => lo ≤ c.toNat && c.toNat ≤ hi

end Text

end Automata
