import Automata.Proofs.Diagrams

/-!
# The nodes of a drawing

The DOT format identifies a node by its name, and it makes no difference whether the name is
written bare or between quotes.  A drawing has a node for each state, called by the name of the
state between quotes, and one node more, from which the arrow into the start comes.  That one is
called `init`.  The names of different states remain different, but nothing keeps a state from
being called `init` as well, and then it shares its node with the beginning of the arrow.

To say so, this file reads the text of a drawing by the rules of the format, as far as a drawing
makes use of them.

## What is here

* `Dot.scan`, `Dot.closeLists`, `Dot.statements`, `Dot.read` — from characters to tokens, from
  tokens to statements about nodes and edges; `Dot.declared`, `Dot.nodes` — the nodes that have a
  statement of their own, and all nodes that are drawn.
* `Dot.identifier` — a quoted name as it is read; `Dot.identifier_injective`,
  `Dot.scan_quotedName`.
* `Dot.Scans` — text that is read as certain tokens whatever follows it, with a fact for each part
  of a drawing.
* `Diagram.statements`, `Diagram.read_render` — **what the text of a drawing is read as.**
* `Dot.ShowsStates` — the nodes of a graph are those of the states and the beginning of the arrow,
  with what follows for their number, and `NFA.showsStates_diagramWith`.
* `nodes_of_drawing` — **the nodes of a drawing are different exactly if no state is called
  `init`**, and `calledInit_shares_node` — a state that shares its node with the beginning of the
  arrow.
-/

set_option autoImplicit false

namespace Automata

namespace Dot

/-! ## Characters and tokens -/

/-- The parts of a text. -/
inductive Token where
  /-- An identifier, bare or between quotes. -/
  | name (text : String)
  /-- The bare word that begins a directed graph. -/
  | digraph
  /-- Another bare word that is not an identifier. -/
  | keyword
  /-- An opening brace. -/
  | beginGraph
  /-- A closing brace. -/
  | endGraph
  /-- An opening bracket. -/
  | beginList
  /-- A closing bracket. -/
  | endList
  /-- The sign between a setting and its value. -/
  | equals
  /-- A comma or a semicolon. -/
  | separator
  /-- The sign between the ends of an edge. -/
  | arrow
  /-- Characters that are none of these. -/
  | invalid
deriving DecidableEq, Repr

/-- Where in a token the reader is, with the characters of the identifier so far. -/
inductive Reading where
  /-- Between two tokens. -/
  | between
  /-- In a bare identifier. -/
  | bare (chars : List Char)
  /-- Between quotes. -/
  | quoted (chars : List Char)
  /-- Between quotes, behind a backslash. -/
  | escape (chars : List Char)
  /-- Behind the first character of an arrow. -/
  | dash
deriving DecidableEq, Repr

/-- The characters that a bare identifier may begin with. -/
def beginsBare (c : Char) : Bool := c.isAlpha || c = '_' || decide (128 ≤ c.toNat)

/-- A bare word as a token; upper and lower case make no difference for the words that are not
identifiers. -/
def word (chars : List Char) : Token :=
  let lower := chars.map Char.toLower
  if lower = "digraph".toList then .digraph
  else if ["graph", "subgraph", "strict", "node", "edge"].any (lower == ·.toList) then .keyword
  else .name (String.ofList chars)

/-- What a backslash and the character behind it are read as between quotes.  Only a quote is
escaped by it, and at the end of a line it joins the lines. -/
def escapeSequence (c : Char) : List Char :=
  if c = '"' then ['"'] else if c = '\n' then [] else ['\\', c]

/-- The token that is complete with a character between tokens, if there is one, and where the
reader is then. -/
def start (c : Char) : List Token × Reading :=
  match c with
  | '"' => ([], .quoted [])
  | '-' => ([], .dash)
  | '\x7b' => ([.beginGraph], .between)
  | '\x7d' => ([.endGraph], .between)
  | '[' => ([.beginList], .between)
  | ']' => ([.endList], .between)
  | '=' => ([.equals], .between)
  | ',' => ([.separator], .between)
  | ';' => ([.separator], .between)
  | c =>
    if c.isWhitespace then ([], .between)
    else if beginsBare c then ([], .bare [c])
    else ([.invalid], .between)

/-- The tokens that are complete with one more character, and where the reader is then. -/
def step : Reading → Char → List Token × Reading
  | .between, c => start c
  | .bare chars, c =>
    if beginsBare c || c.isDigit then ([], .bare (chars ++ [c]))
    else (word chars :: (start c).1, (start c).2)
  | .quoted chars, c =>
    if c = '"' then ([.name (String.ofList chars)], .between)
    else if c = '\\' then ([], .escape chars)
    else ([], .quoted (chars ++ [c]))
  | .escape chars, c => ([], .quoted (chars ++ escapeSequence c))
  | .dash, c => if c = '>' then ([.arrow], .between) else ([.invalid], .between)

/-- The token that the end of the text completes. -/
def finish : Reading → List Token
  | .between => []
  | .bare chars => [word chars]
  | _ => [.invalid]

/-- The tokens of a text. -/
def scan : Reading → List Char → List Token
  | r, [] => finish r
  | r, c :: text => (step r c).1 ++ scan (step r c).2 text

/-! ## Tokens and statements -/

/-- Leaves only the closing bracket of what stands in brackets; `inside` says whether the first
token does. -/
def closeLists (inside : Bool) : List Token → List Token
  | [] => []
  | t :: ts =>
    if t = .endList then t :: closeLists false ts
    else if inside = true ∨ t = .beginList then closeLists true ts
    else t :: closeLists false ts

/-- Something that is said about a graph, without attributes. -/
inductive Statement where
  /-- A setting and its value. -/
  | setting (key value : String)
  /-- A node. -/
  | node (identifier : String)
  /-- An edge. -/
  | edge (source target : String)
deriving DecidableEq, Repr

/-- The statements up to the end of the graph, which has to be the end of the text. -/
def statements : List Token → Option (List Statement)
  | [.endGraph] => some []
  | .name k :: .equals :: .name v :: ts => (statements ts).map (.setting k v :: ·)
  | .name p :: .arrow :: .name q :: .endList :: ts => (statements ts).map (.edge p q :: ·)
  | .name p :: .arrow :: .name q :: ts => (statements ts).map (.edge p q :: ·)
  | .name p :: .endList :: ts => (statements ts).map (.node p :: ·)
  | .name p :: ts => (statements ts).map (.node p :: ·)
  | _ => none

/-- The statements of a text that describes a directed graph. -/
def read (text : String) : Option (List Statement) :=
  match closeLists false (scan .between text.toList) with
  | .digraph :: .name _ :: .beginGraph :: ts => statements ts
  | _ => none

/-- The nodes that a statement is about. -/
def Statement.mentions : Statement → List String
  | setting _ _ => []
  | node p => [p]
  | edge p q => [p, q]

/-- The nodes that a statement introduces. -/
def Statement.declares : Statement → List String
  | node p => [p]
  | _ => []

/-- The nodes that have a statement of their own, in order. -/
def declared (g : List Statement) : List String := g.flatMap Statement.declares

/-- All nodes of the graph: a node is there as soon as anything is said about it. -/
def nodes (g : List Statement) : FinSet String := FinSet.ofList (g.flatMap Statement.mentions)

/-! ## Quoted names -/

/-- A character of a name as it is read between quotes. -/
def doubled (c : Char) : List Char := if c = '\\' then ['\\', c] else [c]

/-- A quoted name as it is read: its quotes are there again, its backslashes remain escaped. -/
def identifier (name : String) : String := String.ofList (name.toList.flatMap doubled)

theorem selfDelimiting_doubled : Text.SelfDelimiting doubled := by
  intro a b s t h
  rw [doubled, doubled] at h
  split at h <;> split at h
  · exact List.cons.inj (List.cons.inj h).2
  · rename_i ha hb
    exact absurd (List.cons.inj h).1.symm hb
  · rename_i ha hb
    exact absurd (List.cons.inj h).1 ha
  · exact List.cons.inj h

/-- **Different names are read as different identifiers.** -/
theorem identifier_injective : Function.Injective identifier := by
  intro m n h
  have hne : ∀ c, doubled c ≠ [] := fun c => by
    rw [doubled]
    split <;> exact List.cons_ne_nil _ _
  have h : m.toList.flatMap doubled ++ [] = n.toList.flatMap doubled ++ [] :=
    congrArg (· ++ []) (String.ofList_injective h)
  exact String.toList_injective
    (selfDelimiting_doubled.flatMap_append_inj (.of_end hne) (.of_end hne) h).1

/-- The only name that is read as `init` is `init`. -/
theorem identifier_eq_init_iff {name : String} : identifier name = "init" ↔ name = "init" := by
  have hinit : identifier "init" = "init" := rfl
  refine ⟨fun h => identifier_injective (h.trans hinit.symm), fun h => ?_⟩
  rw [h, hinit]

theorem scan_escaped (chars : List Char) (c : Char) (rest : List Char) :
    scan (.quoted chars) (Diagram.escaped c ++ rest) =
      scan (.quoted (chars ++ doubled c)) rest := by
  by_cases hback : c = '\\'
  · subst hback
    rfl
  · by_cases hquote : c = '"'
    · subst hquote
      rfl
    · simp [Diagram.escaped, doubled, scan, step, hback, hquote]

theorem scan_flatMap_escaped (chars name rest : List Char) :
    scan (.quoted chars) (name.flatMap Diagram.escaped ++ rest) =
      scan (.quoted (chars ++ name.flatMap doubled)) rest := by
  induction name generalizing chars with
  | nil => rw [List.flatMap_nil, List.flatMap_nil, List.nil_append, List.append_nil]
  | cons c name ih =>
    rw [List.flatMap_cons, List.append_assoc, scan_escaped, ih, List.flatMap_cons,
      List.append_assoc]

/-- **A quoted name is one identifier.** -/
theorem scan_quotedName (name : String) (rest : List Char) :
    scan .between ((Diagram.quotedName name).toList ++ rest) =
      .name (identifier name) :: scan .between rest := by
  rw [Diagram.toList_quotedName, List.cons_append, List.append_assoc]
  have h := scan_flatMap_escaped [] name.toList (['"'] ++ rest)
  exact h

/-! ## Text that is read as certain tokens -/

section Scans

variable {α : Type} {i j k : Bool} {text text' : List Char} {ts us : List Token}

/-- The text is read as the tokens, whatever follows it.  The first flag says whether it begins in
brackets, the second one whether it ends there. -/
def Scans (i : Bool) (text : List Char) (ts : List Token) (j : Bool) : Prop :=
  ∀ rest, closeLists i (scan .between (text ++ rest)) = ts ++ closeLists j (scan .between rest)

theorem Scans.append (h : Scans i text ts j) (h' : Scans j text' us k) :
    Scans i (text ++ text') (ts ++ us) k := by
  intro rest
  rw [List.append_assoc, h, h', List.append_assoc]

theorem Scans.flatMap {write : α → List Char} {tokens : α → List Token}
    (h : ∀ a, Scans i (write a) (tokens a) i) (as : List α) :
    Scans i (as.flatMap write) (as.flatMap tokens) i := by
  induction as with
  | nil => exact fun _ => rfl
  | cons a as ih =>
    rw [List.flatMap_cons, List.flatMap_cons]
    exact (h a).append ih

/-- A whole text is read as its tokens. -/
theorem Scans.closeLists_eq (h : Scans i text ts j) : closeLists i (scan .between text) = ts := by
  have heq := h []
  rwa [List.append_nil, show closeLists j (scan .between []) = [] from rfl,
    List.append_nil] at heq

/-- A name between quotes outside brackets. -/
theorem scans_quotedName (name : String) :
    Scans false (Diagram.quotedName name).toList [.name (identifier name)] false := by
  intro rest
  rw [scan_quotedName]
  rfl

/-- A name between quotes in brackets. -/
theorem skips_quotedName (name : String) :
    Scans true (Diagram.quotedName name).toList [] true := by
  intro rest
  rw [scan_quotedName]
  rfl

/-- Nothing that is said about a node ends the brackets. -/
theorem skips_attribute (a : Diagram.Attribute) : Scans true a.render.toList [] true := by
  have hlabel : Scans true "label=".toList [] true := fun _ => rfl
  have hshape : Scans true "shape=".toList [] true := fun _ => rfl
  cases a with
  | label text =>
    rw [Diagram.Attribute.render, String.toList_append]
    exact hlabel.append (skips_quotedName text)
  | shape name =>
    rw [Diagram.Attribute.render, String.toList_append]
    exact hshape.append (skips_quotedName name)

theorem skips_attributes (as : List Diagram.Attribute) :
    Scans true (", ".toList.intercalate (as.map fun a => a.render.toList)) [] true := by
  have hsep : Scans true ", ".toList [] true := fun _ => rfl
  cases as with
  | nil => exact fun _ => rfl
  | cons a as =>
    rw [List.map_cons, Text.intercalate_cons, List.flatMap_map]
    have h := Scans.flatMap (fun a => hsep.append (skips_attribute a)) as
    rw [List.append_nil, List.flatMap_eq_nil_iff.2 fun _ _ => rfl] at h
    exact (skips_attribute a).append h

theorem scans_node (n : Diagram.Node) :
    Scans false n.render.toList [.name (identifier n.state), .endList] false := by
  have hbegin : Scans false " [".toList [] true := fun _ => rfl
  have hend : Scans true [']'] [.endList] false := fun _ => rfl
  have hlist := hbegin.append ((skips_attributes n.attributes).append hend)
  rw [Diagram.toList_node]
  exact (scans_quotedName n.state).append hlist

theorem scans_arrow (e : Diagram.Arrow) : Scans false e.render.toList
    [.name (identifier e.source), .arrow, .name (identifier e.target), .endList] false := by
  have harrow : Scans false " -> ".toList [.arrow] false := fun _ => rfl
  have hbegin : Scans false " [label=".toList [] true := fun _ => rfl
  have hend : Scans true [']'] [.endList] false := fun _ => rfl
  rw [Diagram.toList_arrow]
  exact (scans_quotedName e.source).append (harrow.append ((scans_quotedName e.target).append
    (hbegin.append ((skips_quotedName e.label).append hend))))

/-- The text that separates the parts of a drawing. -/
theorem Scans.append_newline (h : Scans false text ts false) :
    Scans false (text ++ ['\n']) ts false := by
  have hnewline : Scans false ['\n'] [] false := fun _ => rfl
  have hboth := h.append hnewline
  rwa [List.append_nil] at hboth

/-- **The text of a drawing as tokens.** -/
theorem scans_render (d : Diagram) (name : String) : Scans false (d.render name).toList
    ([.digraph, .name (identifier name), .beginGraph, .name "rankdir", .equals, .name "LR",
      .name "init", .endList] ++
      (d.nodes.flatMap (fun n => [.name (identifier n.state), .endList]) ++
        ([.name "init", .arrow, .name (identifier d.start)] ++
          (d.arrows.toList.flatMap (fun e => [.name (identifier e.source), .arrow,
            .name (identifier e.target), .endList]) ++ [.endGraph])))) false := by
  have hgraph : Scans false "digraph ".toList [.digraph] false := fun _ => rfl
  have hfirst : Scans false " \x7b\nrankdir=LR\ninit [label=\"\", shape=none]\n".toList
      [.beginGraph, .name "rankdir", .equals, .name "LR", .name "init", .endList] false :=
    fun _ => rfl
  have hinit : Scans false ('i' :: "nit -> ".toList) [.name "init", .arrow] false := fun _ => rfl
  have hnewline : Scans false ['\n'] [] false := fun _ => rfl
  have hend : Scans false ['\x7d'] [.endGraph] false := fun _ => rfl
  have hnodes := Scans.flatMap (fun n => (scans_node n).append_newline) d.nodes
  have harrows := Scans.flatMap (fun e => (scans_arrow e).append_newline) d.arrows.toList
  rw [Diagram.toList_render]
  exact hgraph.append ((scans_quotedName name).append (hfirst.append (hnodes.append
    (hinit.append ((scans_quotedName d.start).append
      (hnewline.append (harrows.append hend)))))))

end Scans

/-! ## Statements -/

section Statements

variable {α : Type}

theorem statements_nodes (f : α → String) (as : List α) (ts : List Token) :
    statements (as.flatMap (fun a => [.name (f a), .endList]) ++ ts) =
      (statements ts).map (as.map (fun a => .node (f a)) ++ ·) := by
  induction as with
  | nil => simp
  | cons a as ih => simp [statements, ih, Function.comp_def]

theorem statements_edges (f g : α → String) (as : List α) (ts : List Token) :
    statements (as.flatMap (fun a => [.name (f a), .arrow, .name (g a), .endList]) ++ ts) =
      (statements ts).map (as.map (fun a => .edge (f a) (g a)) ++ ·) := by
  induction as with
  | nil => simp
  | cons a as ih => simp [statements, ih, Function.comp_def]

/-- An edge without attributes before edges with them. -/
theorem statements_edge (p q : String) (f g : α → String) (as : List α) :
    statements (.name p :: .arrow :: .name q ::
        (as.flatMap (fun a => [.name (f a), .arrow, .name (g a), .endList]) ++ [.endGraph])) =
      some (.edge p q :: as.map fun a => .edge (f a) (g a)) := by
  have h := statements_edges f g as [.endGraph]
  rw [show statements [.endGraph] = some [] from rfl, Option.map_some, List.append_nil] at h
  cases as with
  | nil => rfl
  | cons a as =>
    rw [List.flatMap_cons] at h ⊢
    -- the next token is the name of the next source, not a bracket
    exact congrArg (Option.map (.edge p q :: ·)) h

end Statements

end Dot

/-- The statements that a drawing makes. -/
def Diagram.statements (d : Diagram) : List Dot.Statement :=
  .setting "rankdir" "LR" :: .node "init" ::
    (d.nodes.map (fun n => .node (Dot.identifier n.state)) ++
      .edge "init" (Dot.identifier d.start) ::
        d.arrows.toList.map fun e => .edge (Dot.identifier e.source) (Dot.identifier e.target))

/-- **What the text of a drawing is read as.** -/
theorem Diagram.read_render (d : Diagram) (name : String) :
    Dot.read (d.render name) = some d.statements := by
  have htokens := (Dot.scans_render d name).closeLists_eq
  have hedges := Dot.statements_edge "init" (Dot.identifier d.start)
    (fun e => Dot.identifier e.source) (fun e => Dot.identifier e.target) d.arrows.toList
  have hnodes := congrArg
    (Option.map (d.nodes.map (fun n => .node (Dot.identifier n.state)) ++ ·)) hedges
  rw [← Dot.statements_nodes] at hnodes
  rw [Dot.read, htokens]
  -- the setting and the beginning of the arrow come before the nodes of the states
  exact congrArg (fun g => (g.map (.node "init" :: ·)).map (.setting "rankdir" "LR" :: ·)) hnodes

theorem Diagram.declared_statements (d : Diagram) :
    Dot.declared d.statements = "init" :: d.nodes.map fun n => Dot.identifier n.state := by
  have hedges : d.arrows.toList.flatMap (fun e => Dot.Statement.declares
      (.edge (Dot.identifier e.source) (Dot.identifier e.target))) = [] :=
    List.flatMap_eq_nil_iff.2 fun _ _ => rfl
  rw [Dot.declared, statements, List.flatMap_cons, List.flatMap_cons, List.flatMap_append,
    List.flatMap_cons, List.flatMap_map, List.flatMap_map, hedges, List.map_eq_flatMap]
  exact congrArg ("init" :: ·) (List.append_nil _)

theorem Diagram.mem_nodes_statements {d : Diagram} {p : String} :
    p ∈ Dot.nodes d.statements ↔ p ∈ Dot.declared d.statements ∨ p = Dot.identifier d.start ∨
      ∃ e, e ∈ d.arrows ∧ (p = Dot.identifier e.source ∨ p = Dot.identifier e.target) := by
  rw [declared_statements]
  simp only [Dot.nodes, Dot.Statement.mentions, statements, FinSet.mem_ofList, List.flatMap_cons,
    List.flatMap_append, List.flatMap_map, List.mem_append, List.mem_cons, List.mem_flatMap,
    List.mem_map, List.not_mem_nil, FinSet.mem_toList, or_false, false_or]
  grind

/-! ## The nodes of an automaton -/

namespace Dot

variable {g : List Statement} {states : FinSet State}

/-- The graph has the nodes of the given states and the beginning of the arrow into the start. -/
structure ShowsStates (g : List Statement) (states : FinSet State) : Prop where
  /-- The nodes have a statement of their own each, the beginning of the arrow first. -/
  declared_eq : declared g = "init" :: states.toList.map identifier
  /-- There are no other nodes. -/
  mem_nodes : ∀ p, p ∈ nodes g ↔ p ∈ declared g

/-- The names of states never clash with each other. -/
theorem nodup_identifiers (states : FinSet State) : (states.toList.map identifier).Nodup :=
  List.Pairwise.map identifier (fun _ _ hne h => hne (identifier_injective h)) states.nodup

theorem init_mem_identifiers_iff : "init" ∈ states.toList.map identifier ↔ "init" ∈ states := by
  rw [List.mem_map]
  refine ⟨?_, fun h => ⟨"init", h, rfl⟩⟩
  rintro ⟨q, hq, heq⟩
  exact identifier_eq_init_iff.1 heq ▸ hq

/-- **The nodes are different exactly if no state is called `init`.** -/
theorem ShowsStates.nodup_iff (h : ShowsStates g states) :
    (declared g).Nodup ↔ "init" ∉ states := by
  rw [h.declared_eq, List.nodup_cons, init_mem_identifiers_iff]
  exact and_iff_left (nodup_identifiers states)

/-- **There is one node more than there are states**, unless a state is called `init`. -/
theorem ShowsStates.size_nodes (h : ShowsStates g states) :
    (nodes g).size = if "init" ∈ states then states.size else states.size + 1 := by
  have hlength : (states.toList.map identifier).length = states.size := List.length_map _
  split
  · rename_i hinit
    rw [← hlength]
    refine (FinSet.length_eq_size (nodup_identifiers states) fun p => ?_).symm
    rw [h.mem_nodes, h.declared_eq, List.mem_cons]
    refine ⟨.inr, fun hp => hp.elim (fun heq => ?_) id⟩
    exact heq ▸ init_mem_identifiers_iff.2 hinit
  · rename_i hinit
    rw [← hlength, ← List.length_cons (a := "init"), ← h.declared_eq]
    exact (FinSet.length_eq_size (h.nodup_iff.2 hinit) fun p => (h.mem_nodes p).symm).symm

end Dot

/-- The ends of the arrows of an automaton are states. -/
theorem NFA.WellFormed.arrow_mem {A : NFA} (hA : A.WellFormed) {e : Diagram.Arrow}
    (he : e ∈ A.arrows) : e.source ∈ A.states ∧ e.target ∈ A.states := by
  obtain ⟨f, hf, rfl⟩ := NFA.mem_arrows.1 he
  exact ⟨hA.source_mem f hf, hA.target_mem f hf⟩

/-- **The drawing of an automaton shows its states.** -/
theorem NFA.showsStates_diagramWith {A : NFA} (hA : A.WellFormed) (text : State → String) :
    Dot.ShowsStates (A.diagramWith text).statements A.states := by
  have hdeclared : Dot.declared (A.diagramWith text).statements =
      "init" :: A.states.toList.map Dot.identifier := by
    rw [Diagram.declared_statements, diagramWith, List.map_map]
    rfl
  have hstate : ∀ q, q ∈ A.states →
      Dot.identifier q ∈ "init" :: A.states.toList.map Dot.identifier :=
    fun q hq => List.mem_cons_of_mem _ (List.mem_map.2 ⟨q, hq, rfl⟩)
  refine ⟨hdeclared, fun p => ?_⟩
  rw [Diagram.mem_nodes_statements, hdeclared]
  refine ⟨?_, .inl⟩
  rintro (hp | rfl | ⟨e, he, rfl | rfl⟩)
  · exact hp
  · exact hstate _ hA.start_mem
  · exact hstate _ (hA.arrow_mem he).1
  · exact hstate _ (hA.arrow_mem he).2

/-- What the text of the drawing of an automaton says about nodes, whatever is written into them. -/
theorem NFA.exists_read_render {A : NFA} (hA : A.WellFormed) (text : State → String)
    (name : String) : ∃ g, Dot.read ((A.diagramWith text).render name) = some g ∧
      Dot.declared g = "init" :: A.states.toList.map Dot.identifier ∧
      ((Dot.declared g).Nodup ↔ "init" ∉ A.states) ∧
      (Dot.nodes g).size = if "init" ∈ A.states then A.size else A.size + 1 :=
  have hshows := showsStates_diagramWith hA text
  ⟨_, Diagram.read_render _ name, hshows.declared_eq, hshows.nodup_iff, hshows.size_nodes⟩

/-- **The nodes of a drawing.**  The text of the drawing of an automaton or a Moore machine
describes a graph with a statement for the node from which the arrow into the start comes and one
for each state.  Their identifiers are different, and there is one node more than there are states,
exactly if no state is called `init`.  If there is such a state, there are only as many nodes as
states. -/
theorem nodes_of_drawing (name : String) :
    (∀ A : NFA, A.WellFormed →
      ∃ g, Dot.read (A.diagram.render name) = some g ∧
        Dot.declared g = "init" :: A.states.toList.map Dot.identifier ∧
        ((Dot.declared g).Nodup ↔ "init" ∉ A.states) ∧
        (Dot.nodes g).size = if "init" ∈ A.states then A.size else A.size + 1) ∧
    ∀ m : Moore, m.automaton.WellFormed →
      ∃ g, Dot.read (m.diagram.render name) = some g ∧
        Dot.declared g = "init" :: m.automaton.states.toList.map Dot.identifier ∧
        ((Dot.declared g).Nodup ↔ "init" ∉ m.automaton.states) ∧
        (Dot.nodes g).size =
          if "init" ∈ m.automaton.states then m.automaton.size else m.automaton.size + 1 :=
  ⟨fun _ hA => NFA.exists_read_render hA id name,
    fun m hm => NFA.exists_read_render hm m.nodeText name⟩

theorem awkward_nodes_of_drawing :
    (awkward.WellFormed ∧ "init" ∉ awkward.states) ∧
    (∃ g, Dot.read (awkward.diagram.render "init") = some g ∧
      Dot.declared g = ["init", "\" -> \"", "\\\\", "a\nb"] ∧ (Dot.nodes g).size = 4) ∧
    ∃ g, Dot.read (awkwardMoore.diagram.render "\\\"") = some g ∧
      (Dot.declared g).Nodup ∧ (Dot.nodes g).size = 4 := by
  have hA : awkward.WellFormed := by decide
  have hinit : "init" ∉ awkward.states := by decide
  have hdeclared : "init" :: awkward.states.toList.map Dot.identifier =
      ["init", "\" -> \"", "\\\\", "a\nb"] := by decide
  have hsize : (if "init" ∈ awkward.states then awkward.size else awkward.size + 1) = 4 := by decide
  obtain ⟨g, hg, hstates, _, hnodes⟩ := (nodes_of_drawing "init").1 awkward.toNFA hA
  obtain ⟨g', hg', _, hnodup, hnodes'⟩ := (nodes_of_drawing "\\\"").2 awkwardMoore hA
  exact ⟨⟨hA, hinit⟩, ⟨g, hg, hstates.trans hdeclared, hnodes.trans hsize⟩,
    g', hg', hnodup.2 hinit, hnodes'.trans hsize⟩

/-- A state with the name of the node from which the arrow into the start comes. -/
def calledInit : DFA :=
  let moves := FunctionalRelation.ofList [⟨"init", 'a', "t"⟩]
  { states := FinSet.ofList ["init", "t"]
    alphabet := FinSet.ofList ['a']
    start := "init"
    finals := FinSet.ofList ["t"]
    edges := moves.edges
    functional := moves.functional }

/-- The arrow into the start is drawn as a loop, and there are only as many nodes as states. -/
theorem calledInit_shares_node : calledInit.WellFormed ∧ calledInit.size = 2 ∧
    ∃ g, Dot.read (calledInit.diagram.render "x") = some g ∧
      Dot.declared g = ["init", "init", "t"] ∧ ¬ (Dot.declared g).Nodup ∧
      Dot.Statement.edge "init" "init" ∈ g ∧ (Dot.nodes g).size = 2 :=
  ⟨by decide, by decide, _, Diagram.read_render _ _, by decide, by decide, by decide, by decide⟩

end Automata
