import Automata.DFA.Basic
import Automata.Refinement

/-!
# Minimal automata

The states of a deterministic automaton that no tape tells apart are merged.  A missing move
counts as a move into a sink that accepts nothing, so that states without a future fall into the
class of the sink, and that class is left out.

## What is here

* `DFA.pointTable` — the reachable states as points, in ascending order, with the sink after them.
* `DFA.Merging` — the classes of these points and the names of those that survive.
* `DFA.minimize` — the automaton on the surviving classes.
-/

set_option autoImplicit false

namespace Automata

namespace DFA

/-- The points that follow a state, one for every symbol; without a move it is the sink. -/
def pointRow (D : DFA) (points : List State) (q : State) : List Nat :=
  D.alphabet.toList.map fun a =>
    ((D.next? q a).bind fun p => points.idxOf? p).getD points.length

/-- The reachable states as points, in ascending order, followed by the sink. -/
def pointTable (D : DFA) : PointTable :=
  let points := D.reachable.toList
  { rows := points.map (D.pointRow points) ++ [D.alphabet.toList.map fun _ => points.length]
    accepting := points.map D.isFinal ++ [false] }

/-- The reachable states sorted into classes. -/
structure Merging where
  /-- The reachable states, ascending.  The point after the last of them is the sink. -/
  points : List State
  /-- The successors of the points. -/
  table : PointTable
  /-- The class of each point. -/
  classes : List Nat
  /-- The points of each class. -/
  blocks : List (FinSet Nat)

namespace Merging

/-- The states in a block; the sink is not one of them. -/
def members (m : Merging) (block : FinSet Nat) : List State :=
  block.toList.filterMap fun p => m.points[p]?

/-- The class of the sink. -/
def dead (m : Merging) : Option Nat := m.classes[m.points.length]?

/-- The blocks that do not hold the sink, each with its class. -/
def live (m : Merging) : List (Nat × FinSet Nat) :=
  (m.blocks.zipIdx.filter fun (_, c) => some c ≠ m.dead).map fun (block, c) => (c, block)

/-- The names of the surviving classes.  A class is called by its members, and primed if an earlier
class has that name. -/
def names (m : Merging) : List (Nat × State) :=
  let live := m.live
  (live.map Prod.fst).zip (supply [] (live.map fun (_, block) => braced (m.members block)))

/-- The name of the class that holds a point; the sink's class has none. -/
def nameAt (m : Merging) (names : List (Nat × State)) (p : Nat) : Option State :=
  m.classes[p]?.bind fun c => names.lookup c

/-- The moves between surviving classes.  A class moves as its least member does. -/
def edges (m : Merging) (alphabet : List Char) (names : List (Nat × State)) : List Edge :=
  m.live.flatMap fun (c, block) =>
    match names.lookup c, block.min?.bind fun p => m.table.rows[p]? with
    | some name, some row =>
      (alphabet.zip row).filterMap fun (a, p) =>
        (m.nameAt names p).map fun name' => ⟨name, a, name'⟩
    | _, _ => []

/-- The names of the surviving classes whose least member is accepting. -/
def finals (m : Merging) (names : List (Nat × State)) : List State :=
  m.live.filterMap fun (c, block) =>
    if block.min?.bind (fun p => m.table.accepting[p]?) = some true then names.lookup c else none

end Merging

/-- The reachable states of `D` sorted into classes that no tape tells apart. -/
def merging (D : DFA) : Merging :=
  let table := D.pointTable
  let classes := table.classes
  { points := D.reachable.toList
    table := table
    classes := classes
    blocks := (PointTable.blocks classes).classes }

/-- The automaton that consists of one state and accepts nothing. -/
def barren (alphabet : FinSet Char) (q : State) : DFA where
  states := FinSet.singleton q
  alphabet := alphabet
  start := q
  finals := ∅
  edges := ∅
  functional := (∅ : FunctionalRelation).functional

/-- The automaton on the surviving classes of a merging. -/
def Merging.toDFA (m : Merging) (alphabet : FinSet Char) (names : List (Nat × State))
    (start : State) : DFA :=
  let moves := FunctionalRelation.ofList (m.edges alphabet.toList names)
  { states := FinSet.ofList (names.map Prod.snd)
    alphabet := alphabet
    start := start
    finals := FinSet.ofList (m.finals names)
    edges := moves.edges
    functional := moves.functional }

/-- The states in the block of the sink. -/
def Merging.deadMembers (m : Merging) : List State :=
  m.members ((m.dead.bind fun c => m.blocks[c]?).getD ∅)

/-- The automaton that accepts what `D` accepts and has no state that could be spared.  If `D`
accepts nothing at all, a single state is left. -/
def minimize (D : DFA) : DFA :=
  let m := D.merging
  let names := m.names
  match (m.points.idxOf? D.start).bind (m.nameAt names) with
  | none => barren D.alphabet (braced m.deadMembers)
  | some start => m.toDFA D.alphabet names start

end DFA

end Automata
