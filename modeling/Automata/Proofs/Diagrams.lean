import Automata.Diagram

/-!
# Diagrams lose nothing

The text of a drawing can be read from left to right.  A name ends at the first quote that is not
escaped, whatever characters it has, and it is never in doubt whether another node, another
attribute or another arrow follows.  So the text determines the drawing and its name.  The drawing
in turn determines all of the automaton except for its alphabet: arrows that are drawn as one have
all of their symbols at them.

## What is here

* `Text.SelfDelimiting` — ways to write things one after the other so that they can be told apart.
* `Text.SelfDelimiting.flatMap_append_inj`, `Text.SelfDelimiting.intercalate_append_inj` — lists of
  things are written so if it can be told where the list stops.
* `Diagram.selfDelimiting_quotedName`, `Diagram.selfDelimiting_node`,
  `Diagram.selfDelimiting_arrow` — the parts of a drawing are written so.
* `Diagram.render_inj` — **the text determines the drawing and its name.**
* `NFA.edges_eq_of_arrows`, `NFA.diagramWith_inj` — what the drawing of an automaton determines.
* `render_diagram_determines` — **the text of a drawing determines what was drawn.**
-/

set_option autoImplicit false

namespace Automata

namespace Text

/-! ## Things that are written one after the other -/

section SelfDelimiting

variable {α : Type} {write : α → List Char} {as bs : List α} {c : Char} {s t : List Char}

/-- What is written can be told from what is written behind it. -/
def SelfDelimiting (write : α → List Char) : Prop :=
  ∀ a b s t, write a ++ s = write b ++ t → a = b ∧ s = t

/-- The text does not begin with anything that is written. -/
def Stops (write : α → List Char) (text : List Char) : Prop := ∀ a rest, write a ++ rest ≠ text

/-- The first character shows that nothing more is written. -/
theorem Stops.of_head (h : ∀ a, ∃ d rest, write a = d :: rest ∧ d ≠ c) (s : List Char) :
    Stops write (c :: s) := by
  intro a rest heq
  obtain ⟨d, l, hwrite, hne⟩ := h a
  rw [hwrite] at heq
  exact hne (List.cons.inj heq).1

theorem Stops.of_end (h : ∀ a, write a ≠ []) : Stops write [] := by
  intro a rest heq
  exact h a (List.append_eq_nil_iff.1 heq).1

namespace SelfDelimiting

theorem singleton : SelfDelimiting fun c : Char => [c] := by
  intro a b s t h
  exact List.cons.inj h

/-- The same may be written before each thing. -/
theorem prepend (h : SelfDelimiting write) (before : List Char) :
    SelfDelimiting fun a => before ++ write a := by
  intro a b s t heq
  rw [List.append_assoc, List.append_assoc] at heq
  exact h a b s t (List.append_cancel_left heq)

/-- The same may be written behind each thing. -/
theorem append (h : SelfDelimiting write) (after : List Char) :
    SelfDelimiting fun a => write a ++ after := by
  intro a b s t heq
  rw [List.append_assoc, List.append_assoc] at heq
  obtain ⟨hab, hrest⟩ := h a b _ _ heq
  exact ⟨hab, List.append_cancel_left hrest⟩

/-- **Lists can be told from what is written behind them** if that shows where they stop. -/
theorem flatMap_append_inj (h : SelfDelimiting write) (hs : Stops write s) (ht : Stops write t)
    (heq : as.flatMap write ++ s = bs.flatMap write ++ t) : as = bs ∧ s = t := by
  induction as generalizing bs with
  | nil =>
    cases bs with
    | nil => exact ⟨rfl, heq⟩
    | cons b bs =>
      -- the second list goes on where the first one stops
      rw [List.flatMap_cons, List.append_assoc] at heq
      exact absurd heq.symm (hs b _)
  | cons a as ih =>
    rw [List.flatMap_cons, List.append_assoc] at heq
    cases bs with
    | nil => exact absurd heq (ht a _)
    | cons b bs =>
      rw [List.flatMap_cons, List.append_assoc] at heq
      obtain ⟨rfl, hrest⟩ := h a b _ _ heq
      obtain ⟨rfl, hst⟩ := ih hrest
      exact ⟨rfl, hst⟩

end SelfDelimiting

/-- The first of the texts is not separated from anything before it. -/
theorem intercalate_cons (sep l : List Char) (ls : List (List Char)) :
    sep.intercalate (l :: ls) = l ++ ls.flatMap (sep ++ ·) := by
  induction ls generalizing l with
  | nil => rw [List.intercalate_singleton, List.flatMap_nil, List.append_nil]
  | cons l' ls ih =>
    rw [List.intercalate_cons_cons, ih, List.flatMap_cons, List.append_assoc, List.append_assoc]

/-- The last of the texts is not separated from anything behind it. -/
theorem intercalate_concat (sep l : List Char) (ls : List (List Char)) :
    sep.intercalate (ls ++ [l]) = ls.flatMap (· ++ sep) ++ l := by
  induction ls with
  | nil => rw [List.nil_append, List.intercalate_singleton, List.flatMap_nil, List.nil_append]
  | cons l' ls ih =>
    rw [List.cons_append, List.intercalate_cons_of_ne_nil (by simp), ih, List.flatMap_cons,
      List.append_assoc, List.append_assoc, List.append_assoc]

/-- **Lists with separators between their entries can be told from what is written behind them**
under the same conditions. -/
theorem SelfDelimiting.intercalate_append_inj (h : SelfDelimiting write) (sep : List Char)
    (hs : Stops write s ∧ Stops (fun a => sep ++ write a) s)
    (ht : Stops write t ∧ Stops (fun a => sep ++ write a) t)
    (heq : sep.intercalate (as.map write) ++ s = sep.intercalate (bs.map write) ++ t) :
    as = bs ∧ s = t := by
  cases as with
  | nil =>
    cases bs with
    | nil => exact ⟨rfl, heq⟩
    | cons b bs =>
      rw [List.map_cons, intercalate_cons, List.append_assoc] at heq
      exact absurd heq.symm (hs.1 b _)
  | cons a as =>
    rw [List.map_cons, intercalate_cons, List.append_assoc] at heq
    cases bs with
    | nil => exact absurd heq (ht.1 a _)
    | cons b bs =>
      rw [List.map_cons, intercalate_cons, List.append_assoc] at heq
      obtain ⟨rfl, hrest⟩ := h a b _ _ heq
      rw [List.flatMap_map, List.flatMap_map] at hrest
      obtain ⟨rfl, hst⟩ := (h.prepend sep).flatMap_append_inj hs.2 ht.2 hrest
      exact ⟨rfl, hst⟩

end SelfDelimiting

end Text

namespace Diagram

open Text

/-! ## Names -/

/-- A character as it is written in a name. -/
def escaped (c : Char) : List Char := if c = '\\' ∨ c = '"' then ['\\', c] else [c]

theorem toList_quotedName (name : String) :
    (quotedName name).toList = '"' :: (name.toList.flatMap escaped ++ ['"']) :=
  String.toList_ofList

theorem selfDelimiting_escaped : SelfDelimiting escaped := by
  intro a b s t h
  rw [escaped, escaped] at h
  split at h
  · split at h
    · exact List.cons.inj (List.cons.inj h).2
    · rename_i hb
      exact absurd (.inl (List.cons.inj h).1.symm) hb
  · split at h
    · rename_i ha _
      exact absurd (.inl (List.cons.inj h).1) ha
    · exact List.cons.inj h

/-- A quote that is not escaped ends the name. -/
theorem stops_escaped (rest : List Char) : Stops escaped ('"' :: rest) := by
  refine .of_head (fun c => ?_) rest
  rw [escaped]
  split
  · exact ⟨'\\', [c], rfl, by decide⟩
  · rename_i h
    exact ⟨c, [], rfl, fun hc => h (.inr hc)⟩

/-- **Names may have any characters.** -/
theorem selfDelimiting_quotedName : SelfDelimiting fun name => (quotedName name).toList := by
  intro m n s t h
  simp only [toList_quotedName, List.cons_append, List.append_assoc, List.cons.injEq,
    true_and] at h
  obtain ⟨hname, hrest⟩ :=
    selfDelimiting_escaped.flatMap_append_inj (stops_escaped s) (stops_escaped t) h
  exact ⟨String.toList_injective hname, (List.cons.inj hrest).2⟩

/-! ## Nodes and arrows -/

theorem selfDelimiting_attribute : SelfDelimiting fun a : Attribute => a.render.toList := by
  intro a b s t h
  have hlabel := selfDelimiting_quotedName.prepend "label=".toList
  have hshape := selfDelimiting_quotedName.prepend "shape=".toList
  cases a <;> cases b <;> simp only [Attribute.render, String.toList_append] at h
  case label.label text text' =>
    obtain ⟨rfl, hst⟩ := hlabel text text' s t h
    exact ⟨rfl, hst⟩
  case shape.shape name name' =>
    obtain ⟨rfl, hst⟩ := hshape name name' s t h
    exact ⟨rfl, hst⟩
  case label.shape => exact absurd (List.cons.inj h).1 (by decide)
  case shape.label => exact absurd (List.cons.inj h).1 (by decide)

theorem toList_node (n : Node) : n.render.toList = (quotedName n.state).toList ++ (" [".toList ++
    (", ".toList.intercalate (n.attributes.map fun a => a.render.toList) ++ [']'])) := by
  simp [Node.render, String.toList_intercalate, Function.comp_def]

/-- A bracket ends the attributes. -/
theorem stops_attribute (s : List Char) :
    Stops (fun a : Attribute => a.render.toList) (']' :: s) ∧
      Stops (fun a : Attribute => ", ".toList ++ a.render.toList) (']' :: s) := by
  refine ⟨.of_head (fun a => ?_) s, .of_head (fun a => ⟨',', _, rfl, by decide⟩) s⟩
  cases a with
  | label text => exact ⟨'l', _, by rw [Attribute.render, String.toList_append]; rfl, by decide⟩
  | shape name => exact ⟨'s', _, by rw [Attribute.render, String.toList_append]; rfl, by decide⟩

theorem selfDelimiting_node : SelfDelimiting fun n : Node => n.render.toList := by
  rintro ⟨p, as⟩ ⟨q, bs⟩ s t h
  simp only [toList_node, List.append_assoc, List.singleton_append] at h
  obtain ⟨rfl, h₁⟩ := selfDelimiting_quotedName p q _ _ h
  obtain ⟨rfl, h₂⟩ := selfDelimiting_attribute.intercalate_append_inj ", ".toList
    (stops_attribute s) (stops_attribute t) (List.append_cancel_left h₁)
  exact ⟨rfl, (List.cons.inj h₂).2⟩

theorem toList_arrow (e : Arrow) : e.render.toList = (quotedName e.source).toList ++
    (" -> ".toList ++ ((quotedName e.target).toList ++
      (" [label=".toList ++ ((quotedName e.label).toList ++ [']'])))) := by
  simp [Arrow.render]

theorem selfDelimiting_arrow : SelfDelimiting fun e : Arrow => e.render.toList := by
  rintro ⟨p, text, q⟩ ⟨p', text', q'⟩ s t h
  simp only [toList_arrow, List.append_assoc, List.singleton_append] at h
  obtain ⟨rfl, h₁⟩ := selfDelimiting_quotedName p p' _ _ h
  obtain ⟨rfl, h₂⟩ := selfDelimiting_quotedName q q' _ _ (List.append_cancel_left h₁)
  obtain ⟨rfl, h₃⟩ := selfDelimiting_quotedName text text' _ _ (List.append_cancel_left h₂)
  exact ⟨rfl, (List.cons.inj h₃).2⟩

/-! ## Drawings -/

variable {d d' : Diagram} {name name' : String}

/-- The text of a drawing from left to right. -/
theorem toList_render (d : Diagram) (name : String) : (d.render name).toList =
    "digraph ".toList ++ ((quotedName name).toList ++
      (" \x7b\nrankdir=LR\ninit [label=\"\", shape=none]\n".toList ++
        (d.nodes.flatMap (fun n => n.render.toList ++ ['\n']) ++
          'i' :: ("nit -> ".toList ++ ((quotedName d.start).toList ++
            '\n' :: (d.arrows.toList.flatMap (fun e => e.render.toList ++ ['\n']) ++
              ['\x7d'])))))) := by
  rw [render, String.toList_intercalate, List.map_append, List.map_singleton, intercalate_concat]
  simp [List.flatMap_append, List.flatMap_map, List.append_assoc]

/-- A node begins with a quote. -/
theorem stops_node {c : Char} (hc : '"' ≠ c) (s : List Char) :
    Stops (fun n : Node => n.render.toList ++ ['\n']) (c :: s) :=
  .of_head (fun n => ⟨'"', _, by rw [toList_node, toList_quotedName]; rfl, hc⟩) s

/-- An arrow begins with a quote. -/
theorem stops_arrow {c : Char} (hc : '"' ≠ c) (s : List Char) :
    Stops (fun e : Arrow => e.render.toList ++ ['\n']) (c :: s) :=
  .of_head (fun e => ⟨'"', _, by rw [toList_arrow, toList_quotedName]; rfl, hc⟩) s

/-- **The text determines the drawing and its name.** -/
theorem render_inj (h : d.render name = d'.render name') : name = name' ∧ d = d' := by
  obtain ⟨start, nodes, arrows⟩ := d
  obtain ⟨start', nodes', arrows'⟩ := d'
  have h := congrArg String.toList h
  rw [toList_render, toList_render] at h
  -- from left to right, each part ends at the same place in both texts
  obtain ⟨hname, h₁⟩ := selfDelimiting_quotedName name name' _ _ (List.append_cancel_left h)
  obtain ⟨hnodes, h₂⟩ := (selfDelimiting_node.append ['\n']).flatMap_append_inj
    (stops_node (by decide) _) (stops_node (by decide) _) (List.append_cancel_left h₁)
  have h₃ := List.append_cancel_left (List.cons.inj h₂).2
  obtain ⟨hstart, h₄⟩ := selfDelimiting_quotedName start start' _ _ h₃
  obtain ⟨harrows, _⟩ := (selfDelimiting_arrow.append ['\n']).flatMap_append_inj
    (stops_arrow (by decide) _) (stops_arrow (by decide) _) (List.cons.inj h₄).2
  rw [mk.injEq]
  exact ⟨hname, hstart, hnodes, FinSet.eq_of_toList_eq harrows⟩

end Diagram

/-! ## Automata -/

namespace NFA

open Text

variable {A B : NFA} {text text' : State → String}

theorem mem_symbolsBetween {p q : State} {a : Char} :
    a ∈ A.symbolsBetween p q ↔ (⟨p, a, q⟩ : Edge) ∈ A.edges := by
  simp only [symbolsBetween, List.mem_map, List.mem_filter, FinSet.mem_toList,
    Bool.and_eq_true, decide_eq_true_eq]
  refine ⟨?_, fun h => ⟨_, ⟨h, rfl, rfl⟩, rfl⟩⟩
  rintro ⟨e, ⟨he, rfl, rfl⟩, rfl⟩
  exact he

/-- **The symbols at an arrow can be told apart**, even if they are commas and blanks. -/
theorem symbolsText_inj {l l' : List Char}
    (h : ", ".intercalate (l.map String.singleton) = ", ".intercalate (l'.map String.singleton)) :
    l = l' := by
  have h := congrArg String.toList h
  simp only [String.toList_intercalate, List.map_map, Function.comp_def,
    String.toList_singleton] at h
  have heq : ", ".toList.intercalate (l.map fun c => [c]) ++ [] =
      ", ".toList.intercalate (l'.map fun c => [c]) ++ [] := congrArg (· ++ []) h
  have hstops : Stops (fun c : Char => [c]) [] ∧ Stops (fun c : Char => ", ".toList ++ [c]) [] :=
    ⟨.of_end fun _ => List.cons_ne_nil _ _, .of_end fun _ => by simp⟩
  exact (SelfDelimiting.singleton.intercalate_append_inj ", ".toList hstops hstops heq).1

theorem mem_arrows {x : Diagram.Arrow} : x ∈ A.arrows ↔ ∃ e, e ∈ A.edges ∧ ⟨e.source,
    ", ".intercalate ((A.symbolsBetween e.source e.target).map String.singleton), e.target⟩ = x :=
  FinSet.mem_map

/-- Every edge of the one automaton is drawn with an arrow of the other. -/
theorem edges_subset_of_arrows (h : A.arrows = B.arrows) {e : Edge} (he : e ∈ A.edges) :
    e ∈ B.edges := by
  have harrow := mem_arrows.2 ⟨e, he, rfl⟩
  rw [h, mem_arrows] at harrow
  obtain ⟨f, _, heq⟩ := harrow
  obtain ⟨hsource, htext, htarget⟩ := Diagram.Arrow.mk.inj heq
  rw [hsource, htarget] at htext
  have hsymbols := symbolsText_inj htext
  rw [← mem_symbolsBetween (A := B), hsymbols, mem_symbolsBetween]
  exact he

/-- **The arrows have all edges at them.** -/
theorem edges_eq_of_arrows (h : A.arrows = B.arrows) : A.edges = B.edges :=
  FinSet.ext fun _ => ⟨edges_subset_of_arrows h, edges_subset_of_arrows h.symm⟩

/-- A node is drawn for each state. -/
theorem states_eq_of_nodes
    (h : A.states.toList.map (A.node text) = B.states.toList.map (B.node text')) :
    A.states = B.states := by
  have hstates := congrArg (List.map Diagram.Node.state) h
  simp only [List.map_map, Function.comp_def, node, List.map_id'] at hstates
  exact FinSet.eq_of_toList_eq hstates

/-- The outline of a node shows whether its state is final. -/
theorem isFinal_eq_of_node {q : State} (h : A.node text q = B.node text' q) :
    A.isFinal q = B.isFinal q := by
  simp only [node, Diagram.Node.mk.injEq, List.cons.injEq, Diagram.Attribute.shape.injEq] at h
  have hshape := h.2.1
  cases hA : A.isFinal q <;> cases hB : B.isFinal q <;> rw [hA, hB] at hshape
  case false.true => exact absurd hshape (by decide)
  case true.false => exact absurd hshape (by decide)

/-- **The drawing of an automaton determines all of it but the alphabet**, and what is written into
the nodes. -/
theorem diagramWith_inj (hA : A.WellFormed) (hB : B.WellFormed)
    (h : A.diagramWith text = B.diagramWith text') :
    (A.states = B.states ∧ A.start = B.start ∧ A.finals = B.finals ∧ A.edges = B.edges) ∧
      ∀ q, q ∈ A.states → text q = text' q := by
  obtain ⟨hstart, hnodes, harrows⟩ := Diagram.mk.inj h
  have hstates := states_eq_of_nodes hnodes
  rw [hstates] at hnodes
  have hnode := List.map_inj_left.1 hnodes
  have hfinals : A.finals = B.finals := by
    refine FinSet.ext fun q => ?_
    have hfinal : q ∈ B.states → (q ∈ A.finals ↔ q ∈ B.finals) := by
      intro hq
      have heq := isFinal_eq_of_node (hnode q hq)
      rwa [isFinal, isFinal, decide_eq_decide] at heq
    exact ⟨fun hq => (hfinal (hstates ▸ hA.finals_subset q hq)).1 hq,
      fun hq => (hfinal (hB.finals_subset q hq)).2 hq⟩
  refine ⟨⟨hstates, hstart, hfinals, edges_eq_of_arrows harrows⟩, fun q hq => ?_⟩
  have heq := hnode q (hstates ▸ hq)
  simp only [node, Diagram.Node.mk.injEq, List.cons.injEq, Diagram.Attribute.label.injEq] at heq
  exact heq.2.2.1

end NFA

/-! ## Moore machines -/

/-- The text in a node shows the output, and whether there is one. -/
theorem Moore.nodeText_inj {m m' : Moore} {q : State} (h : m.nodeText q = m'.nodeText q) :
    m.outputAt q = m'.outputAt q := by
  have h := congrArg String.toList h
  rw [nodeText, nodeText] at h
  cases hm : m.outputAt q <;> cases hm' : m'.outputAt q <;> rw [hm, hm'] at h
  case some.some c c' => simpa using h
  all_goals simp at h

/-- **The text of a drawing determines what was drawn**, its name and all of the automaton but the
alphabet, and in the case of Moore machines the outputs of the states.  Drawings and states may be
called anything, any characters may be symbols, and the automata may be deterministic or not. -/
theorem render_diagram_determines :
    (∀ (A B : NFA) (name name' : String), A.WellFormed → B.WellFormed →
      A.diagram.render name = B.diagram.render name' →
      name = name' ∧ A.states = B.states ∧ A.start = B.start ∧ A.finals = B.finals ∧
        A.edges = B.edges) ∧
    ∀ (m m' : Moore) (name name' : String), m.automaton.WellFormed → m'.automaton.WellFormed →
      m.diagram.render name = m'.diagram.render name' →
      (name = name' ∧ m.automaton.states = m'.automaton.states ∧
        m.automaton.start = m'.automaton.start ∧ m.automaton.finals = m'.automaton.finals ∧
        m.automaton.edges = m'.automaton.edges) ∧
      ∀ q, q ∈ m.automaton.states → m.outputAt q = m'.outputAt q := by
  refine ⟨fun A B name name' hA hB h => ?_, fun m m' name name' hm hm' h => ?_⟩
  · obtain ⟨hname, hdiagram⟩ := Diagram.render_inj h
    exact ⟨hname, (NFA.diagramWith_inj hA hB hdiagram).1⟩
  · obtain ⟨hname, hdiagram⟩ := Diagram.render_inj h
    obtain ⟨hsame, htext⟩ := NFA.diagramWith_inj hm hm' hdiagram
    exact ⟨⟨hname, hsame⟩, fun q hq => Moore.nodeText_inj (htext q hq)⟩

/-- Names with quotes, backslashes and line breaks, one of them in the form of an arrow, and a
blank, a quote, a comma and a backslash for symbols. -/
def awkward : DFA :=
  let moves := FunctionalRelation.ofList
    [⟨"\\", ' ', "a\nb"⟩, ⟨"\\", ',', "a\nb"⟩, ⟨"a\nb", '"', "\" -> \""⟩, ⟨"a\nb", '\\', "\\"⟩]
  { states := FinSet.ofList ["\" -> \"", "\\", "a\nb"]
    alphabet := FinSet.ofList [' ', '"', ',', '\\']
    start := "\\"
    finals := FinSet.ofList ["\" -> \""]
    edges := moves.edges
    functional := moves.functional }

/-- The same with a symbol that no edge has. -/
def awkwardWider : DFA := { awkward with alphabet := awkward.alphabet.insert '\n' }

/-- One of the outputs is the bar that comes before outputs. -/
def awkwardMoore : Moore where
  automaton := awkward
  output := FinMap.ofList [("\\", '|'), ("a\nb", '"'), ("\" -> \"", '\\')]

/-- The same with another alphabet and with an output for a state that does not exist. -/
def awkwardMooreWider : Moore where
  automaton := awkwardWider
  output := FinMap.ofList [("\\", '|'), ("a\nb", '"'), ("\" -> \"", '\\'), ("c", ' ')]

theorem awkward_render_diagram_determines :
    (awkward.WellFormed ∧ awkwardWider.WellFormed ∧
      awkward.diagram.render "\\\"\n" = awkwardWider.diagram.render "\\\"\n") ∧
    awkward.states = awkwardWider.states ∧ awkward.edges = awkwardWider.edges ∧
    awkwardMoore.diagram.render "" = awkwardMooreWider.diagram.render "" ∧
    ∀ q, q ∈ awkward.states → awkwardMoore.outputAt q = awkwardMooreWider.outputAt q := by
  have hA : awkward.WellFormed := by decide
  have hB : awkwardWider.WellFormed := by decide
  have h : awkward.diagram.render "\\\"\n" = awkwardWider.diagram.render "\\\"\n" := rfl
  have hmoore : awkwardMoore.diagram = awkwardMooreWider.diagram := by decide
  have hmoore : awkwardMoore.diagram.render "" = awkwardMooreWider.diagram.render "" := by
    rw [hmoore]
  obtain ⟨_, hstates, _, _, hedges⟩ := render_diagram_determines.1 _ _ _ _ hA hB h
  obtain ⟨_, houtput⟩ := render_diagram_determines.2 awkwardMoore awkwardMooreWider _ _ hA hB hmoore
  exact ⟨⟨hA, hB, h⟩, hstates, hedges, hmoore, houtput⟩

end Automata
