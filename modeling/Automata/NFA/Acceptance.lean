import Automata.NFA.Basic

/-!
# Three ways to decide acceptance

All three answer whether a nondeterministic automaton accepts a tape.

## What is here

* `NFA.acceptsBacktracking` — follows one run at a time and returns to the last open choice when
  it fails.  The open choices stand on a stack.
* `NFA.accepts` — follows all runs at once, as the set of states that are active together.
* `NFA.acceptsTabulated` — the same on numbers: the states are numbered, a set of states is the
  number whose bits they are, and every step is kept in a table so that it is computed once.
-/

set_option autoImplicit false

namespace Automata

namespace NFA

/-! ## Backtracking -/

/-- How much work a pending run of this length can still cause, where `b` bounds the choices of
one move. -/
def weight (b : Nat) : Nat → Nat
  | 0 => 1
  | length + 1 => (b + 2) * weight b length

/-- The work that all pending runs can cause together. -/
def totalWeight (b : Nat) : List (State × List Char) → Nat
  | [] => 0
  | (_, rest) :: pending => weight b rest.length + totalWeight b pending

theorem weight_pos (b length : Nat) : 0 < weight b length := by
  induction length with
  | zero => exact Nat.one_pos
  | succ n ih => exact Nat.mul_pos (Nat.succ_pos _) ih

theorem length_map_le {α β : Type} [Ord β] [Std.TransOrd β] [Std.LawfulEqOrd β] (f : α → β)
    (l : List α) : (FinSet.ofList (l.map f)).toList.length ≤ l.length := by
  have place_le : ∀ (b : β) (m : List β), (FinSet.place b m).length ≤ m.length + 1 := by
    intro b m
    induction m with
    | nil => exact Nat.le_refl _
    | cons c m ih =>
      unfold FinSet.place
      split
      · exact Nat.le_refl _
      · exact Nat.le_succ _
      · exact Nat.succ_le_succ ih
  induction l with
  | nil => exact Nat.le_refl _
  | cons a l ih => exact Nat.le_trans (place_le _ _) (Nat.succ_le_succ ih)

/-- A state has at most as many next states as there are edges. -/
theorem length_next_le (A : NFA) (q : State) (a : Char) :
    (A.next q a).toList.length ≤ A.edges.size :=
  Nat.le_trans (length_map_le _ _) (List.length_filter_le _ _)

theorem totalWeight_map (b : Nat) (l : List State) (w : List Char) :
    totalWeight b (l.map fun q => (q, w)) = l.length * weight b w.length := by
  induction l with
  | nil => simp [totalWeight]
  | cons q l ih =>
    rw [List.map_cons, totalWeight, ih, List.length_cons, Nat.succ_mul, Nat.add_comm]

theorem totalWeight_append (b : Nat) (l m : List (State × List Char)) :
    totalWeight b (l ++ m) = totalWeight b l + totalWeight b m := by
  induction l with
  | nil => simp [totalWeight]
  | cons p l ih => rw [List.cons_append, totalWeight, totalWeight, ih, Nat.add_assoc]

/-- Replacing a run by its continuations leaves less work. -/
theorem totalWeight_step_lt (A : NFA) (q : State) (a : Char) (w : List Char)
    (pending : List (State × List Char)) :
    totalWeight A.edges.size
        (((A.next q a).toList.reverse.map fun p => (p, w)) ++ pending)
      < totalWeight A.edges.size ((q, a :: w) :: pending) := by
  have hlen := length_next_le A q a
  have hpos := weight_pos A.edges.size w.length
  have hmul := Nat.mul_le_mul_right (weight A.edges.size w.length) hlen
  rw [totalWeight_append, totalWeight_map, List.length_reverse, totalWeight, List.length_cons,
    weight, Nat.add_mul]
  omega

theorem totalWeight_drop_lt (A : NFA) (q : State) (pending : List (State × List Char)) :
    totalWeight A.edges.size pending < totalWeight A.edges.size ((q, []) :: pending) := by
  rw [totalWeight, List.length_nil, weight]
  omega

/-- Serves a stack of pending runs, each a state with the part of the tape still to be read.  The
last choice to be pushed is the first to be tried. -/
def search (A : NFA) : List (State × List Char) → Bool
  | [] => false
  | (q, []) :: pending => A.isFinal q || search A pending
  | (q, a :: w) :: pending =>
    search A (((A.next q a).toList.reverse.map fun p => (p, w)) ++ pending)
termination_by pending => totalWeight A.edges.size pending
decreasing_by
  · exact totalWeight_drop_lt A q pending
  · exact totalWeight_step_lt A q a w pending

/-- Decides acceptance by trying one run after the other. -/
def acceptsBacktracking (A : NFA) (tape : List Char) : Bool := A.search [(A.start, tape)]

/-! ## All runs at once -/

/-- The states that can be entered from a member of `active` by reading `a`. -/
def step (A : NFA) (active : FinSet State) (a : Char) : FinSet State :=
  FinSet.ofList (active.toList.flatMap fun q => (A.next q a).toList)

theorem mem_step {A : NFA} {active : FinSet State} {a : Char} {p : State} :
    p ∈ A.step active a ↔ ∃ q, q ∈ active ∧ (⟨q, a, p⟩ : Edge) ∈ A.edges := by
  simp only [step, FinSet.mem_ofList, List.mem_flatMap, FinSet.mem_toList, next,
    Relation.mem_targets]

/-- Reads a tape from a set of active states; once no state is active the tape is rejected. -/
def acceptsFrom (A : NFA) (active : FinSet State) : List Char → Bool
  | [] => active.meets A.finals
  | a :: w =>
    let active' := A.step active a
    if active'.isEmpty then false else acceptsFrom A active' w

/-- Decides acceptance by following all runs at once. -/
def accepts (A : NFA) (tape : List Char) : Bool := A.acceptsFrom (FinSet.singleton A.start) tape

/-! ## On numbers -/

/-- The number of a state: its place among the states in ascending order. -/
def numberOf (A : NFA) (q : State) : Option Nat := A.states.toList.idxOf? q

/-- The set of numbers in a list, as the number whose bits they are. -/
def mask (numbers : List Nat) : Nat := numbers.foldr (fun i m => 1 <<< i ||| m) 0

/-- The places of the bits that are set. -/
def bits (m : Nat) : List Nat := (List.range (m.log2 + 1)).filter m.testBit

/-- For one symbol, the mask of the next states of every state in ascending order. -/
def successorRows (A : NFA) (a : Char) : List Nat :=
  A.states.toList.map fun q => mask ((A.next q a).toList.filterMap A.numberOf)

/-- The successor rows of every symbol. -/
abbrev SuccessorMatrix := List (Char × List Nat)

/-- The successor rows of all symbols of the alphabet. -/
def successorMatrix (A : NFA) : SuccessorMatrix :=
  A.alphabet.toList.map fun a => (a, A.successorRows a)

/-- The mask of the states that can be entered from those in `active` by reading `a`. -/
def SuccessorMatrix.step (rows : SuccessorMatrix) (active : Nat) (a : Char) : Nat :=
  match rows.lookup a with
  | none => 0
  | some successors =>
    ((bits active).filterMap fun i => successors[i]?).foldr (fun row m => row ||| m) 0

/-- Steps that are already known: from which mask along which symbol to which mask. -/
abbrev StepMemo := List ((Nat × Char) × Nat)

/-- Reads a tape from a mask of active states.  A step that is known is looked up, and one that is
not becomes known. -/
def SuccessorMatrix.acceptsFrom (rows : SuccessorMatrix) (finals : Nat) (known : StepMemo)
    (active : Nat) : List Char → Bool
  | [] => active &&& finals != 0
  | a :: w =>
    let (active', known') :=
      match known.lookup (active, a) with
      | some m => (m, known)
      | none =>
        let m := rows.step active a
        (m, ((active, a), m) :: known)
    if active' = 0 then false else SuccessorMatrix.acceptsFrom rows finals known' active' w

/-- Decides acceptance on numbered states. -/
def acceptsTabulated (A : NFA) (tape : List Char) : Bool :=
  A.successorMatrix.acceptsFrom (mask (A.finals.toList.filterMap A.numberOf)) []
    (mask ([A.start].filterMap A.numberOf)) tape

end NFA

end Automata
