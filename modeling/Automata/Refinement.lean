import Automata.Partition

/-!
# Partition refinement

Points `0, …, n-1` are given with a row of successors each, and some of them are accepting.
Refinement starts from two classes, accepting and not, and splits classes until any two points of
one class have successors in the same classes.

## What is here

* `PointTable` — the rows of successors and the accepting points.
* `PointTable.refine` — one round: points stay together if their own classes and the classes of
  their successors agree.
* `PointTable.stable`, `PointTable.partition` — the classes at which rounds no longer split any.
-/

set_option autoImplicit false

namespace Automata

/-- Numbers the entries of a list so that equal entries have equal numbers: the number of an entry
counts the different entries that come before its first occurrence. -/
def numberFirsts {σ : Type} [BEq σ] (l : List σ) : List Nat :=
  let different := l.eraseDups
  l.map fun s => different.idxOf s

/-- The number of different entries of a list. -/
def countDifferent (l : List Nat) : Nat := l.eraseDups.length

theorem length_eraseDups_le {σ : Type} [BEq σ] (l : List σ) : l.eraseDups.length ≤ l.length := by
  have : ∀ n (l : List σ), l.length ≤ n → l.eraseDups.length ≤ l.length := by
    intro n
    induction n with
    | zero =>
      intro l hl
      rw [List.length_eq_zero_iff.1 (Nat.le_zero.1 hl)]
      exact Nat.le_refl _
    | succ n ih =>
      intro l hl
      cases l with
      | nil => exact Nat.le_refl _
      | cons a l =>
        rw [List.eraseDups_cons, List.length_cons, List.length_cons]
        have hf := List.length_filter_le (fun b => !b == a) l
        have := ih (l.filter fun b => !b == a) (by simp only [List.length_cons] at hl; omega)
        omega
  exact this l.length l (Nat.le_refl _)

/-- Points `0, …, n-1`, each with its successors, some of them accepting. -/
structure PointTable where
  /-- The successors of each point, one for every symbol. -/
  rows : List (List Nat)
  /-- Whether each point is accepting. -/
  accepting : List Bool
deriving DecidableEq, Repr

namespace PointTable

/-- The classes of all points before the first round: `1` for accepting points and `0` for the
others. -/
def initial (t : PointTable) : List Nat := t.accepting.map Bool.toNat

/-- What one round looks at: the class of each point with the classes of its successors. -/
def signatures (t : PointTable) (classes : List Nat) : List (Nat × List (Option Nat)) :=
  List.zipWith (fun c row => (c, row.map fun p => classes[p]?)) classes t.rows

/-- One round of refinement.  Points with equal signatures get equal classes. -/
def refine (t : PointTable) (classes : List Nat) : List Nat := numberFirsts (t.signatures classes)

theorem countDifferent_refine_le (t : PointTable) (classes : List Nat) :
    countDifferent (t.refine classes) ≤ t.rows.length := by
  refine Nat.le_trans (length_eraseDups_le _) ?_
  simp only [refine, numberFirsts, signatures, List.length_map, List.length_zipWith]
  exact Nat.min_le_right _ _

/-- Refines until a round yields no further class. -/
def stable (t : PointTable) (classes : List Nat) : List Nat :=
  let refined := t.refine classes
  if countDifferent classes < countDifferent refined then stable t refined else refined
termination_by t.rows.length - countDifferent classes
decreasing_by
  have hle := countDifferent_refine_le t classes
  have hlt : countDifferent classes < countDifferent (t.refine classes) := by assumption
  omega

/-- The class of every point once refinement has ended. -/
def classes (t : PointTable) : List Nat := t.stable t.initial

/-- The points of each class of a classification. -/
def blocks (classes : List Nat) : Partition Nat :=
  ⟨(List.range (countDifferent classes)).map fun c =>
    FinSet.ofList ((List.range classes.length).filter fun p => classes[p]? = some c)⟩

/-- The coarsest partition that separates accepting from other points and that the successors
respect. -/
def partition (t : PointTable) : Partition Nat := blocks t.classes

end PointTable

end Automata
