import Automata.Moore

/-!
# Diagrams in the DOT format

An automaton is drawn as a graph: a node for each state, an arrow into the start, and one arrow for
all the symbols that lead from one state to another.

## What is here

* `Diagram` — the nodes, with what is said about them, and the arrows of a drawing.
* `Diagram.render` — the drawing as text.
* `NFA.diagram`, `Moore.diagram` — the drawing of an automaton or a Moore machine.
-/

set_option autoImplicit false

namespace Automata

open Std

namespace Diagram

/-- Something that is said about a node. -/
inductive Attribute where
  /-- The text in the node. -/
  | label (text : String)
  /-- The outline of the node. -/
  | shape (name : String)
deriving DecidableEq, Repr

/-- A node and what is said about it. -/
structure Node where
  /-- The state that is drawn. -/
  state : State
  /-- What is said about it, in order. -/
  attributes : List Attribute
deriving DecidableEq, Repr

/-- An arrow between two nodes. -/
structure Arrow where
  /-- Where the arrow begins. -/
  source : State
  /-- What is written at it. -/
  label : String
  /-- Where the arrow ends. -/
  target : State
deriving DecidableEq, Repr

instance : Ord Arrow :=
  ⟨compareLex (compareOn Arrow.source)
    (compareLex (compareOn Arrow.label) (compareOn Arrow.target))⟩

instance : TransOrd Arrow :=
  inferInstanceAs (TransCmp (compareLex (compareOn Arrow.source)
    (compareLex (compareOn Arrow.label) (compareOn Arrow.target))))

instance : LawfulEqOrd Arrow where
  eq_of_compare {e f} h := by
    have h : compareLex (compareOn Arrow.source)
        (compareLex (compareOn Arrow.label) (compareOn Arrow.target)) e f = .eq := h
    simp only [compareLex_eq_eq, compareOn] at h
    cases e
    cases f
    simp only [Arrow.mk.injEq]
    exact ⟨LawfulEqOrd.eq_of_compare h.1, LawfulEqOrd.eq_of_compare h.2.1,
      LawfulEqOrd.eq_of_compare h.2.2⟩

end Diagram

/-- A drawing of an automaton. -/
structure Diagram where
  /-- The state that an arrow from nowhere points to. -/
  start : State
  /-- The nodes, in the order in which they are drawn. -/
  nodes : List Diagram.Node
  /-- The arrows, ordered by source, label and target. -/
  arrows : FinSet Diagram.Arrow
deriving DecidableEq

namespace Diagram

/-- A name between double quotes, in which double quotes and backslashes are escaped. -/
def quotedName (name : String) : String :=
  let escape (c : Char) : List Char := if c = '\\' ∨ c = '"' then ['\\', c] else [c]
  String.ofList ('"' :: name.toList.flatMap escape ++ ['"'])

/-- An attribute as text. -/
def Attribute.render : Attribute → String
  | label text => "label=" ++ quotedName text
  | shape name => "shape=" ++ quotedName name

/-- A node as text. -/
def Node.render (n : Node) : String :=
  quotedName n.state ++ " [" ++ ", ".intercalate (n.attributes.map Attribute.render) ++ "]"

/-- An arrow as text. -/
def Arrow.render (e : Arrow) : String :=
  quotedName e.source ++ " -> " ++ quotedName e.target ++ " [label=" ++ quotedName e.label ++ "]"

/-- The text of the drawing, which is called `name`. -/
def render (d : Diagram) (name : String) : String :=
  "\n".intercalate
    (["digraph " ++ quotedName name ++ " \x7b", "rankdir=LR", "init [label=\"\", shape=none]"]
      ++ d.nodes.map Node.render
      ++ ["init -> " ++ quotedName d.start]
      ++ d.arrows.toList.map Arrow.render
      ++ ["\x7d"])

end Diagram

namespace NFA

open Diagram

/-- The node of a state, in which `text` is written; final states have a double outline. -/
def node (A : NFA) (text : State → String) (q : State) : Node where
  state := q
  attributes := [.shape (if A.isFinal q then "doublecircle" else "circle"), .label (text q)]

/-- The symbols that lead from one state to another. -/
def symbolsBetween (A : NFA) (p q : State) : List Char :=
  (A.edges.toList.filter fun e => e.source = p && e.target = q).map Edge.symbol

/-- The arrows of the drawing, one for any two states with an edge between them. -/
def arrows (A : NFA) : FinSet Arrow :=
  FinSet.map (fun e : Edge =>
    ⟨e.source, ", ".intercalate ((A.symbolsBetween e.source e.target).map String.singleton),
      e.target⟩) A.edges

/-- The drawing of an automaton, in which `text` is written into the node of a state. -/
def diagramWith (A : NFA) (text : State → String) : Diagram where
  start := A.start
  nodes := A.states.toList.map (A.node text)
  arrows := A.arrows

/-- The drawing of an automaton. -/
def diagram (A : NFA) : Diagram := A.diagramWith id

end NFA

namespace Moore

/-- The text in the node of a state: its name and, if it has one, its output. -/
def nodeText (m : Moore) (q : State) : String :=
  match m.outputAt q with
  | some c => q ++ " | " ++ String.singleton c
  | none => q

/-- The drawing of a Moore machine. -/
def diagram (m : Moore) : Diagram := m.automaton.diagramWith m.nodeText

end Moore

end Automata
