import Automata.FinSet

/-!
# Partitions as lists of classes

A partition divides things into classes.  It is kept as the list of its classes; nothing stops a
caller from listing overlapping or repeated ones, and the questions below are answered for any
list.

## What is here

* `Partition α`, with `size` and `classOf?`.
* `Partition.covers p q` — the comparison of two partitions: as many classes, and every class of
  `p` among those of `q`.
-/

set_option autoImplicit false

namespace Automata

/-- A division into classes. -/
structure Partition (α : Type) [Ord α] where
  /-- The classes, in the order in which they were listed. -/
  classes : List (FinSet α)

namespace Partition

variable {α : Type} [Ord α]

instance [DecidableEq α] : DecidableEq (Partition α) := fun p q =>
  if h : p.classes = q.classes then
    isTrue (by cases p; cases q; simp_all)
  else
    isFalse (fun e => h (congrArg classes e))

/-- The partition whose classes have the listed members. -/
def ofLists [Std.TransOrd α] [Std.LawfulEqOrd α] (lists : List (List α)) : Partition α :=
  ⟨lists.map FinSet.ofList⟩

/-- The number of classes. -/
def size (p : Partition α) : Nat := p.classes.length

/-- The place of the first class that has `a` as a member. -/
def classOf? [DecidableEq α] (p : Partition α) (a : α) : Option Nat :=
  p.classes.findIdx? fun c => decide (a ∈ c)

/-- Whether `q` has as many classes as `p` and every class of `p` among them. -/
def covers [DecidableEq α] (p q : Partition α) : Bool :=
  decide (p.size = q.size) && p.classes.all fun c => decide (c ∈ q.classes)

end Partition

end Automata
