import Automata.Proofs.Description
import Automata.Proofs.Pieces

/-!
# The format of descriptions

A line that is not blank has markers, a name and possibly alternatives behind an arrow, with blanks
between these wherever one likes.  The token `->` is a marker in front of the name and the arrow
behind it, and markers, names, symbols and targets may be written together, so that it takes a look
at names to see that lines can be read in one way only.

## What is here

* `Description.Markers`, `Description.Alternative`, `Description.Alternatives`, `Description.Line` —
  the format of a line, together with what the line says.
* `Description.Says` — what all lines say, none of which contradicts another about the start.
* `StateLine.ofText_eq_ok_iff`, `edgesOfText_eq_ok_iff`, `statementsOfLine_eq_ok_iff` — the heads of
  lines, the alternatives and the lines that can be read are those of the format.
* `Description.addLines_eq_ok_iff`, `Description.addLines_eq_error` — the lines that can be read,
  and what is reported otherwise.
* `Description.ofText_exact` — **a text is read exactly if it has the format, it is read as what it
  says, and otherwise the first line that does not fit is reported.**
-/

set_option autoImplicit false

namespace Automata

open Text

/-! ## The format -/

namespace Description

/-- A token of an alternative. -/
structure IsToken (l : List Char) : Prop where
  ne_nil : l ≠ []
  solid : Solid l
  bar_not_mem : '|' ∉ l

/-- The name of a state.  Nothing in it or at its front can be taken for something else. -/
structure IsName (l : List Char) : Prop where
  ne_nil : l ≠ []
  solid : Solid l
  bar_not_mem : '|' ∉ l
  noArrow : ¬HasArrow l
  noMarker : ¬['(', ')'] <+: l

/-- Markers, each with blanks behind it, and whether `->` and `()` are among them. -/
inductive Markers : Bool → Bool → List Char → Prop where
  /-- There are none. -/
  | none : Markers false false []
  /-- The marker of the start. -/
  | start {isStart isFinal : Bool} {gap rest : List Char} :
      Blank gap → Markers isStart isFinal rest → Markers true isFinal ('-' :: '>' :: (gap ++ rest))
  /-- The marker of a final state. -/
  | final {isStart isFinal : Bool} {gap rest : List Char} :
      Blank gap → Markers isStart isFinal rest → Markers isStart true ('(' :: ')' :: (gap ++ rest))

/-- An alternative of the state `q`, and the edge that it stands for. -/
inductive Alternative (q : State) : Edge → List Char → Prop where
  /-- The symbol and the target are two tokens. -/
  | spaced {front gap back target : List Char} {a : Char} : Blank front → Blank gap → gap ≠ [] →
      Blank back → IsToken [a] → IsToken target →
      Alternative q ⟨q, a, String.ofList target⟩ (front ++ [a] ++ gap ++ target ++ back)
  /-- The symbol and the target are one token. -/
  | joined {front back target : List Char} {a : Char} : Blank front → Blank back → target ≠ [] →
      IsToken (a :: target) →
      Alternative q ⟨q, a, String.ofList target⟩ (front ++ a :: target ++ back)

/-- One or more alternatives of the state `q` with bars between them. -/
inductive Alternatives (q : State) : List Statement → List Char → Prop where
  /-- The last alternative. -/
  | last {e : Edge} {text : List Char} : Alternative q e text → Alternatives q [.edge e] text
  /-- An alternative before others. -/
  | more {e : Edge} {text rest : List Char} {edges : List Statement} : Alternative q e text →
      Alternatives q edges rest → Alternatives q (.edge e :: edges) (text ++ '|' :: rest)

/-- What the markers and the name of a line say. -/
def headStatements (isStart isFinal : Bool) (q : State) : List Statement :=
  (if isStart then [.start q] else []) ++ (if isFinal then [.final q] else []) ++ [.state q]

/-- A line without blanks around it, and what it says. -/
inductive Line : List Statement → List Char → Prop where
  /-- Nothing at all. -/
  | blank : Line [] []
  /-- Markers and a name. -/
  | bare {isStart isFinal : Bool} {markers name : List Char} :
      Markers isStart isFinal markers → IsName name →
      Line (headStatements isStart isFinal (String.ofList name)) (markers ++ name)
  /-- Markers, a name, an arrow and alternatives. -/
  | arrow {isStart isFinal : Bool} {markers name gap text : List Char} {edges : List Statement} :
      Markers isStart isFinal markers → IsName name → Blank gap →
      Alternatives (String.ofList name) edges text →
      Line (headStatements isStart isFinal (String.ofList name) ++ edges)
        (markers ++ name ++ gap ++ '-' :: '>' :: text)

/-- At most one state is the start, after what was declared and what is said. -/
def OneStart (declared : Option State) (statements : List Statement) : Prop :=
  ∀ p q, declared = some p ∨ .start p ∈ statements → declared = some q ∨ .start q ∈ statements →
    p = q

/-- The lines say this, in the order of the lines, after a start was declared or not. -/
def SaysAfter (declared : Option State) (lines : List (List Char)) (statements : List Statement) :
    Prop :=
  ∃ said, List.Forall₂ (fun line l => Line l (trimmed line)) lines said ∧
    statements = said.flatten ∧ OneStart declared statements

/-- The lines say this, in the order of the lines. -/
abbrev Says : List (List Char) → List Statement → Prop := SaysAfter none

end Description

/-! ## The head of a line -/

namespace StateLine

open Description

variable {l rest markers name gap : List Char} {isStart isFinal : Bool}

/-- There is neither a marker nor a blank at the front. -/
structure Unmarked (l : List Char) : Prop where
  flush : Flush l
  noStart : ¬['-', '>'] <+: l
  noFinal : ¬['(', ')'] <+: l

theorem flush_append_of_markers (h : Markers isStart isFinal markers) (hrest : Flush rest) :
    Flush (markers ++ rest) := by
  cases h with
  | none => exact hrest
  | start _ _ => exact flush_cons_iff.2 (by decide)
  | final _ _ => exact flush_cons_iff.2 (by decide)

/-- All markers are taken, and nothing else. -/
theorem takeMarkers_append (h : Markers isStart isFinal markers) (hrest : Unmarked rest)
    (s f : Bool) : takeMarkers s f (markers ++ rest) = (s || isStart, f || isFinal, rest) := by
  induction h generalizing s f with
  | none =>
    rw [List.nil_append, takeMarkers, Bool.or_false, Bool.or_false]
    · rintro after rfl
      exact hrest.noStart ⟨after, rfl⟩
    · rintro after rfl
      exact hrest.noFinal ⟨after, rfl⟩
  | start hgap hm ih =>
    rw [List.cons_append, List.cons_append, takeMarkers, List.append_assoc,
      trimmedFront_append hgap, trimmedFront_of_flush (flush_append_of_markers hm hrest.flush), ih,
      Bool.true_or, Bool.or_true]
  | final hgap hm ih =>
    rw [List.cons_append, List.cons_append, takeMarkers, List.append_assoc,
      trimmedFront_append hgap, trimmedFront_of_flush (flush_append_of_markers hm hrest.flush), ih,
      Bool.true_or, Bool.or_true]

/-- Every line begins with the markers that are taken off it. -/
theorem exists_markers (hl : Flush l) (s f : Bool) : ∃ isStart isFinal markers rest,
    Markers isStart isFinal markers ∧ Unmarked rest ∧ l = markers ++ rest ∧
      takeMarkers s f l = (s || isStart, f || isFinal, rest) := by
  fun_induction takeMarkers s f l with
  | case1 s f rest ih =>
    obtain ⟨isStart, isFinal, markers, rest', hm, hrest, heq, htake⟩ := ih (flush_trimmedFront rest)
    obtain ⟨gap, hgap, hgapeq⟩ := exists_trimmedFront rest
    refine ⟨true, isFinal, _, rest', .start hgap hm, hrest, ?_, ?_⟩
    · rw [List.cons_append, List.cons_append, List.append_assoc, ← heq, ← hgapeq]
    · rw [htake, Bool.true_or, Bool.or_true]
  | case2 s f rest ih =>
    obtain ⟨isStart, isFinal, markers, rest', hm, hrest, heq, htake⟩ := ih (flush_trimmedFront rest)
    obtain ⟨gap, hgap, hgapeq⟩ := exists_trimmedFront rest
    refine ⟨isStart, true, _, rest', .final hgap hm, hrest, ?_, ?_⟩
    · rw [List.cons_append, List.cons_append, List.append_assoc, ← heq, ← hgapeq]
    · rw [htake, Bool.true_or, Bool.or_true]
  | case3 s f rest hstart hfinal =>
    refine ⟨false, false, [], rest, .none, ⟨hl, ?_, ?_⟩, rfl, by rw [Bool.or_false, Bool.or_false]⟩
    · rintro ⟨after, rfl⟩
      exact hstart after rfl
    · rintro ⟨after, rfl⟩
      exact hfinal after rfl

theorem nameFault?_eq_none_iff : nameFault? l = none ↔ l ≠ [] ∧ Solid l ∧ '|' ∉ l := by
  rw [nameFault?]
  split
  · rename_i h
    exact iff_of_false nofun fun hl => hl.1 (List.isEmpty_iff.1 h)
  · rename_i hne
    split
    · rename_i h
      obtain ⟨c, hc, hbad⟩ := List.any_eq_true.1 h
      refine iff_of_false nofun fun ⟨_, hsolid, hbar⟩ => ?_
      rw [hsolid c hc, Bool.false_or, beq_iff_eq] at hbad
      exact hbar (hbad ▸ hc)
    · rename_i h
      rw [List.any_eq_true] at h
      refine iff_of_true rfl ⟨fun hl => hne (List.isEmpty_iff.2 hl), fun c hc => ?_, fun hbar => ?_⟩
      · exact Bool.eq_false_iff.2 fun hblank => h ⟨c, hc, by rw [hblank, Bool.true_or]⟩
      · exact h ⟨'|', hbar, rfl⟩

/-- Two characters at the front are in what comes first, unless that is too short. -/
theorem pair_prefix_append {a b : Char} (hl : l ≠ []) (h : [a, b] <+: l ++ rest) :
    [a, b] <+: l ∨ b ∈ rest.head? := by
  obtain ⟨c, l, rfl⟩ := List.exists_cons_of_ne_nil hl
  rw [List.cons_append, List.cons_prefix_cons] at h
  obtain ⟨rfl, after, hafter⟩ := h
  cases l with
  | nil =>
    rw [List.nil_append] at hafter
    exact .inr (hafter ▸ rfl)
  | cons d l => exact .inl ⟨l, by rw [(List.cons.inj hafter).1]; rfl⟩

/-- A name is not taken for a marker, whatever comes behind it. -/
theorem unmarked_append (hname : IsName name) (hrest : ∀ c ∈ rest.head?, c ≠ '>' ∧ c ≠ ')') :
    Unmarked (name ++ rest) := by
  refine ⟨hname.solid.flush.append hname.ne_nil, fun h => ?_, fun h => ?_⟩
  · rcases pair_prefix_append hname.ne_nil h with h | h
    · exact hname.noArrow h.isInfix
    · exact (hrest _ h).1 rfl
  · rcases pair_prefix_append hname.ne_nil h with h | h
    · exact hname.noMarker h
    · exact (hrest _ h).2 rfl

/-- A name is not taken for a marker by what may come between it and the arrow. -/
theorem unmarked_append_arrow (hname : IsName name) (hgap : Blank gap) (text : List Char) :
    Unmarked (name ++ gap ++ '-' :: '>' :: text) := by
  rw [List.append_assoc]
  refine unmarked_append hname fun c hc => ?_
  cases gap with
  | nil =>
    cases hc
    decide
  | cons d gap =>
    cases hc
    have hblank := hgap c List.mem_cons_self
    constructor <;> rintro rfl <;> revert hblank <;> decide

/-- How a line is read once its markers are known and it has no arrow. -/
theorem ofText_of_noArrow {line : List Char} {h : StateLine}
    (hm : Markers isStart isFinal markers) (hrest : Unmarked rest)
    (hline : trimmed line = markers ++ rest) (hcut : cutAtArrow rest = none) :
    ofText line = .ok h ↔
      nameFault? (trimmed rest) = none ∧ ⟨isStart, isFinal, trimmed rest, none⟩ = h := by
  rw [ofText, hline, takeMarkers_append hm hrest]
  simp only [hcut, Bool.false_or]
  cases nameFault? (trimmed rest) <;> simp

/-- How a line is read once its markers and its arrow are known. -/
theorem ofText_of_arrow {line before after : List Char} {h : StateLine}
    (hm : Markers isStart isFinal markers) (hrest : Unmarked rest)
    (hline : trimmed line = markers ++ rest) (hcut : cutAtArrow rest = some (before, after)) :
    ofText line = .ok h ↔
      nameFault? (trimmed before) = none ∧ ⟨isStart, isFinal, trimmed before, some after⟩ = h := by
  rw [ofText, hline, takeMarkers_append hm hrest]
  simp only [hcut, Bool.false_or]
  cases nameFault? (trimmed before) <;> simp

/-- What passes as a name is one, if it is what the markers are off and no arrow is in it. -/
theorem isName_of_nameFault? (hfault : nameFault? (trimmed l) = none) (hl : ¬HasArrow l)
    (hrest : Unmarked (l ++ rest)) :
    IsName (trimmed l) ∧ ∃ gap, Blank gap ∧ l = trimmed l ++ gap := by
  obtain ⟨hne, hsolid, hbar⟩ := nameFault?_eq_none_iff.1 hfault
  obtain ⟨gap, hgap, heq⟩ := exists_trimmed l
  rw [trimmedFront_of_flush hrest.flush.of_append] at heq
  have hfront : trimmed l <+: l := ⟨gap, heq.symm⟩
  refine ⟨⟨hne, hsolid, hbar, fun h => hl (h.trans hfront.isInfix), fun h => ?_⟩, gap, hgap, heq⟩
  exact hrest.noFinal ((h.trans hfront).trans (List.prefix_append l rest))

/-- Markers and a name are read as what they are. -/
theorem ofText_bare {line : List Char} (hm : Markers isStart isFinal markers) (hname : IsName name)
    (hline : trimmed line = markers ++ name) :
    ofText line = .ok ⟨isStart, isFinal, name, none⟩ := by
  have hfault := nameFault?_eq_none_iff.2 ⟨hname.ne_nil, hname.solid, hname.bar_not_mem⟩
  have hrest : Unmarked (name ++ []) := unmarked_append hname fun _ h => nomatch h
  have htrim := trimmed_append hname.solid blank_nil
  rw [List.append_nil] at hrest htrim
  refine (ofText_of_noArrow hm hrest hline (cutAtArrow_eq_none_iff.2 hname.noArrow)).2 ?_
  rw [htrim]
  exact ⟨hfault, rfl⟩

/-- What comes behind the first arrow is kept for the alternatives. -/
theorem ofText_arrow {line text : List Char} (hm : Markers isStart isFinal markers)
    (hname : IsName name) (hgap : Blank gap)
    (hline : trimmed line = markers ++ name ++ gap ++ '-' :: '>' :: text) :
    ofText line = .ok ⟨isStart, isFinal, name, some text⟩ := by
  have hfault := nameFault?_eq_none_iff.2 ⟨hname.ne_nil, hname.solid, hname.bar_not_mem⟩
  rw [List.append_assoc, List.append_assoc, ← List.append_assoc name] at hline
  have hcut : cutAtArrow (name ++ gap ++ '-' :: '>' :: text) = some (name ++ gap, text) :=
    cutAtArrow_append (not_hasArrow_append hname.noArrow hgap)
  refine (ofText_of_arrow hm (unmarked_append_arrow hname hgap text) hline hcut).2 ?_
  rw [trimmed_append hname.solid hgap]
  exact ⟨hfault, rfl⟩

/-- The heads that can be read are those of the format. -/
theorem ofText_eq_ok_iff {line : List Char} {h : StateLine} : ofText line = .ok h ↔
    IsName h.name ∧ ∃ markers, Markers h.isStart h.isFinal markers ∧
      match h.alternatives with
      | none => trimmed line = markers ++ h.name
      | some text => ∃ gap, Blank gap ∧
          trimmed line = markers ++ h.name ++ gap ++ '-' :: '>' :: text := by
  refine ⟨fun hok => ?_, ?_⟩
  · obtain ⟨isStart, isFinal, markers, rest, hm, hrest, hline, _⟩ :=
      exists_markers (flush_trimmed line) false false
    cases hcut : cutAtArrow rest with
    | none =>
      obtain ⟨hfault, rfl⟩ := (ofText_of_noArrow hm hrest hline hcut).1 hok
      have hfull : Unmarked (rest ++ []) := by rwa [List.append_nil]
      obtain ⟨hname, gap, hgap, heq⟩ :=
        isName_of_nameFault? hfault (cutAtArrow_eq_none_iff.1 hcut) hfull
      refine ⟨hname, markers, hm, ?_⟩
      rw [heq, ← List.append_assoc] at hline
      rw [hline, eq_nil_of_trimmed_eq hline hgap, List.append_nil]
    | some cut =>
      obtain ⟨before, after⟩ := cut
      obtain ⟨hfault, rfl⟩ := (ofText_of_arrow hm hrest hline hcut).1 hok
      obtain ⟨rfl, hbefore⟩ := cutAtArrow_eq_some_iff.1 hcut
      obtain ⟨hname, gap, hgap, heq⟩ := isName_of_nameFault? hfault hbefore hrest
      refine ⟨hname, markers, hm, gap, hgap, ?_⟩
      rw [hline, List.append_assoc markers, ← heq, List.append_assoc]
  · obtain ⟨isStart, isFinal, name, alternatives⟩ := h
    rintro ⟨hname, markers, hm, hline⟩
    cases alternatives with
    | none => exact ofText_bare hm hname hline
    | some text =>
      obtain ⟨gap, hgap, hline⟩ := hline
      exact ofText_arrow hm hname hgap hline

end StateLine

/-! ## Alternatives -/

section Alternatives

open Description

variable {q p : State} {a : Char} {text : List Char} {e : Edge} {edges : List Statement}

/-- A bar belongs to no alternative. -/
theorem Description.Alternative.bar_not_mem (h : Alternative q e text) : '|' ∉ text := by
  have hblank : ∀ {l : List Char}, Blank l → '|' ∉ l := fun hl hmem =>
    absurd (hl '|' hmem) (by decide)
  cases h with
  | spaced hfront hgap _ hback ha htarget =>
    simp only [List.mem_append, not_or]
    exact ⟨⟨⟨⟨hblank hfront, ha.bar_not_mem⟩, hblank hgap⟩, htarget.bar_not_mem⟩, hblank hback⟩
  | joined hfront hback _ ha =>
    simp only [List.mem_append, not_or]
    exact ⟨⟨hblank hfront, ha.bar_not_mem⟩, hblank hback⟩

/-- The alternatives that can be read are those of the format. -/
theorem alternative_iff (htext : '|' ∉ text) : Alternative q e text ↔
    ∃ a p, alternativeOfText? text = some (a, p) ∧ e = ⟨q, a, p⟩ := by
  refine ⟨fun h => ?_, ?_⟩
  · cases h with
    | spaced hfront hgap hgap' hback ha htarget =>
      refine ⟨_, _, ?_, rfl⟩
      rw [alternativeOfText?, words_eq_pair_iff.2 ⟨_, _, _, hfront, hgap, hgap', hback, ha.solid,
        ha.ne_nil, htarget.solid, htarget.ne_nil, rfl⟩]
    | joined hfront hback htarget ha =>
      obtain ⟨b, target, rfl⟩ := List.exists_cons_of_ne_nil htarget
      refine ⟨_, _, ?_, rfl⟩
      rw [alternativeOfText?,
        words_eq_singleton_iff.2 ⟨_, _, hfront, hback, ha.solid, ha.ne_nil, rfl⟩]
  · rintro ⟨a, p, h, rfl⟩
    rw [alternativeOfText?] at h
    split at h
    · rename_i hwords
      cases h
      obtain ⟨front, gap, back, hfront, hgap, hgap', hback, ha, ha', htarget, htarget', rfl⟩ :=
        words_eq_pair_iff.1 hwords
      simp only [List.mem_append, not_or] at htext
      exact .spaced hfront hgap hgap' hback ⟨ha', ha, htext.1.1.1.2⟩ ⟨htarget', htarget, htext.1.2⟩
    · rename_i hwords
      cases h
      obtain ⟨front, back, hfront, hback, ha, ha', rfl⟩ := words_eq_singleton_iff.1 hwords
      simp only [List.mem_append, not_or] at htext
      exact .joined hfront hback (List.cons_ne_nil _ _) ⟨ha', ha, htext.1.2⟩
    · cases h

theorem bar_not_mem_iff : '|' ∉ text ↔ ∀ c ∈ text, (c == '|') = false := by
  simp only [beq_eq_false_iff_ne]
  exact ⟨fun h c hc hbar => h (hbar ▸ hc), fun h hbar => h _ hbar rfl⟩

/-- A piece between bars is read as an edge, or for some reason it is not. -/
theorem edge_eq_ok_iff (htext : '|' ∉ text) {reason : String} {s : Statement} :
    (match alternativeOfText? text with
      | some (a, p) => Except.ok (Statement.edge ⟨q, a, p⟩)
      | none => .error reason) = .ok s ↔ ∃ e, Alternative q e text ∧ s = .edge e := by
  simp only [alternative_iff htext]
  cases alternativeOfText? text with
  | none => exact iff_of_false nofun fun ⟨_, ⟨_, _, h, _⟩, _⟩ => nomatch h
  | some pair =>
    obtain ⟨a, p⟩ := pair
    refine ⟨fun h => ⟨_, ⟨a, p, rfl, rfl⟩, (Except.ok.inj h).symm⟩, ?_⟩
    rintro ⟨_, ⟨_, _, ⟨⟩, rfl⟩, rfl⟩
    rfl

/-- How the only alternative of a text is read. -/
theorem edgesOfText_of_bar_not_mem (htext : '|' ∉ text) : edgesOfText q text = .ok edges ↔
    ∃ e, Alternative q e text ∧ edges = [.edge e] := by
  rw [edgesOfText, pieces_eq_singleton (bar_not_mem_iff.1 htext), mapM_eq_ok_iff,
    List.forall₂_cons_left_iff]
  refine ⟨?_, ?_⟩
  · rintro ⟨s, _, hs, hnil, rfl⟩
    obtain ⟨e, he, rfl⟩ := (edge_eq_ok_iff htext).1 hs
    cases hnil
    exact ⟨e, he, rfl⟩
  · rintro ⟨e, he, rfl⟩
    exact ⟨_, [], (edge_eq_ok_iff htext).2 ⟨e, he, rfl⟩, .nil, rfl⟩

/-- How the first of several alternatives is read. -/
theorem edgesOfText_append {rest : List Char} (htext : '|' ∉ text) :
    edgesOfText q (text ++ '|' :: rest) = .ok edges ↔
      ∃ e edges', Alternative q e text ∧ edgesOfText q rest = .ok edges' ∧
        edges = .edge e :: edges' := by
  rw [edgesOfText, edgesOfText, pieces_append (bar_not_mem_iff.1 htext) (beq_self_eq_true '|'),
    mapM_eq_ok_iff, List.forall₂_cons_left_iff]
  refine ⟨?_, ?_⟩
  · rintro ⟨s, edges', hs, hrest, rfl⟩
    obtain ⟨e, he, rfl⟩ := (edge_eq_ok_iff htext).1 hs
    exact ⟨e, edges', he, mapM_eq_ok_iff.2 hrest, rfl⟩
  · rintro ⟨e, edges', he, hrest, rfl⟩
    exact ⟨_, edges', (edge_eq_ok_iff htext).2 ⟨e, he, rfl⟩, mapM_eq_ok_iff.1 hrest, rfl⟩

/-- Whatever is read between bars is what the format has between bars. -/
theorem edgesOfText_eq_ok_iff : edgesOfText q text = .ok edges ↔ Alternatives q edges text := by
  refine ⟨fun h => ?_, fun h => ?_⟩
  · -- the induction is on the length of what is left behind a bar
    induction hn : text.length using Nat.strong_induction_on generalizing text edges with
    | _ n ih =>
      rcases pieces_cases (· == '|') text with hbar | ⟨w, c, rest, rfl, hw, hc⟩
      · obtain ⟨e, he, rfl⟩ := (edgesOfText_of_bar_not_mem (bar_not_mem_iff.2 hbar)).1 h
        exact .last he
      · cases beq_iff_eq.1 hc
        obtain ⟨e, edges', he, hrest, rfl⟩ := (edgesOfText_append (bar_not_mem_iff.2 hw)).1 h
        refine .more he (ih rest.length ?_ hrest rfl)
        rw [← hn, List.length_append, List.length_cons]
        omega
  · induction h with
    | last he => exact (edgesOfText_of_bar_not_mem he.bar_not_mem).2 ⟨_, he, rfl⟩
    | more he _ ih => exact (edgesOfText_append he.bar_not_mem).2 ⟨_, _, he, ih, rfl⟩

end Alternatives

/-! ## Lines -/

namespace Description

variable {declared : Option State} {isStart isFinal : Bool} {q : State}
  {edges l l' : List Statement} {line text : List Char}

theorem Alternatives.start_not_mem (h : Alternatives q edges text) (p : State) :
    .start p ∉ edges := by
  induction h with
  | last _ => simp
  | more _ _ ih => simp [ih]

/-- The head of a line names its state as the start if it has the marker. -/
theorem start_mem_headStatements {p : State} :
    .start p ∈ headStatements isStart isFinal q ↔ isStart = true ∧ p = q := by
  cases isStart <;> cases isFinal <;> simp [headStatements]

theorem Alternatives.start_mem_append_iff (h : Alternatives q edges text) {p : State} :
    .start p ∈ headStatements isStart isFinal q ++ edges ↔ isStart = true ∧ p = q := by
  rw [List.mem_append, or_iff_left (h.start_not_mem p), start_mem_headStatements]

/-- A line contradicts what was declared only by its marker. -/
theorem oneStart_iff (hl : ∀ p, .start p ∈ l ↔ isStart = true ∧ p = q) :
    OneStart declared l ↔ (isStart = true → ∀ p, declared = some p → p = q) := by
  simp only [OneStart, hl]
  refine ⟨fun h hstart p hp => h p q (.inl hp) (.inr ⟨hstart, rfl⟩), fun h p p' hp hp' => ?_⟩
  rcases hp with hp | ⟨hstart, rfl⟩ <;> rcases hp' with hp' | ⟨hstart', rfl⟩
  · exact Option.some_inj.1 (hp.symm.trans hp')
  · exact h hstart' p hp
  · exact (h hstart p' hp').symm
  · rfl

end Description

section Lines

open Description

variable {declared : Option State} {line : List Char} {statements : List Statement}

/-- A line is read head first, and is refused if it names another start. -/
theorem statementsOfLine_eq_ok_iff_of_head :
    statementsOfLine declared line = .ok statements ↔ ∃ head : StateLine,
      StateLine.ofText line = .ok head ∧
      (head.isStart = true → ∀ p, declared = some p → p = String.ofList head.name) ∧
      match head.alternatives with
      | none => statements = head.statements
      | some text => ∃ edges, edgesOfText (String.ofList head.name) text = .ok edges ∧
          statements = head.statements ++ edges := by
  rw [statementsOfLine, bind_eq_ok_iff]
  refine exists_congr fun head => and_congr_right fun _ => ?_
  have hrest : (match head.alternatives with
      | none => return head.statements
      | some text => return head.statements ++ (← edgesOfText (String.ofList head.name) text) :
        Except String (List Statement)) = .ok statements ↔
      match head.alternatives with
      | none => statements = head.statements
      | some text => ∃ edges, edgesOfText (String.ofList head.name) text = .ok edges ∧
          statements = head.statements ++ edges := by
    cases head.alternatives with
    | none => exact ⟨fun h => (Except.ok.inj h).symm, fun h => congrArg Except.ok h.symm⟩
    | some text =>
      refine bind_eq_ok_iff.trans (exists_congr fun edges => and_congr_right fun _ => ?_)
      exact ⟨fun h => (Except.ok.inj h).symm, fun h => congrArg Except.ok h.symm⟩
  cases declared with
  | none => exact hrest.trans (and_iff_right fun _ _ h => nomatch h).symm
  | some p =>
    dsimp only
    split
    · rename_i hother
      rw [Bool.and_eq_true, bne_iff_ne] at hother
      exact iff_of_false nofun fun h => hother.2 (h.1 hother.1 p rfl)
    · rename_i hsame
      refine hrest.trans (and_iff_right fun hstart _ h => ?_).symm
      rw [hstart, Bool.true_and, bne_iff_ne, not_not] at hsame
      exact Option.some_inj.1 h ▸ hsame

/-- The lines that can be read are those of the format, if they do not contradict what was
declared. -/
theorem statementsOfLine_eq_ok_iff : statementsOfLine declared line = .ok statements ↔
    trimmed line ≠ [] ∧ Line statements (trimmed line) ∧ OneStart declared statements := by
  rw [statementsOfLine_eq_ok_iff_of_head]
  refine ⟨?_, ?_⟩
  · rintro ⟨⟨isStart, isFinal, name, alternatives⟩, hhead, hstart, hstatements⟩
    obtain ⟨hname, markers, hm, hline⟩ := StateLine.ofText_eq_ok_iff.1 hhead
    cases alternatives with
    | none =>
      dsimp only at hline hstatements
      rw [hline, hstatements]
      refine ⟨List.append_ne_nil_of_right_ne_nil _ hname.ne_nil, .bare hm hname, ?_⟩
      exact (oneStart_iff fun _ => start_mem_headStatements).2 hstart
    | some text =>
      obtain ⟨gap, hgap, hline⟩ := hline
      obtain ⟨edges, hedges, rfl⟩ := hstatements
      rw [edgesOfText_eq_ok_iff] at hedges
      rw [hline]
      exact ⟨List.append_ne_nil_of_right_ne_nil _ (List.cons_ne_nil _ _),
        .arrow hm hname hgap hedges, (oneStart_iff fun _ => hedges.start_mem_append_iff).2 hstart⟩
  · rintro ⟨hne, hline, hone⟩
    generalize htrim : trimmed line = content at hne hline
    cases hline with
    | blank => exact absurd rfl hne
    | bare hm hname =>
      exact ⟨⟨_, _, _, none⟩, StateLine.ofText_eq_ok_iff.2 ⟨hname, _, hm, htrim⟩,
        (oneStart_iff fun _ => start_mem_headStatements).1 hone, rfl⟩
    | arrow hm hname hgap hedges =>
      exact ⟨⟨_, _, _, some _⟩, StateLine.ofText_eq_ok_iff.2 ⟨hname, _, hm, _, hgap, htrim⟩,
        (oneStart_iff fun _ => hedges.start_mem_append_iff).1 hone, _,
        edgesOfText_eq_ok_iff.2 hedges, rfl⟩

end Lines

namespace Description

variable {d d' : Description} {number : Nat} {line : List Char} {rows : List (List Char)}
  {statements l l' : List Statement} {text : List Char}

/-- The start is the state that was declared or is named. -/
theorem start_addAll_eq_some_iff (h : OneStart d.start l) {q : State} :
    (d.addAll l).start = some q ↔ d.start = some q ∨ .start q ∈ l := by
  induction l generalizing d with
  | nil => exact (or_iff_left List.not_mem_nil).symm
  | cons s l ih =>
    -- a start that is named takes the place of one that was declared, which was the same
    have hnamed : ∀ p, ((d.add s).start = some p ∨ .start p ∈ l) ↔
        (d.start = some p ∨ .start p ∈ s :: l) := fun p => by
      cases s with
      | start r =>
        rw [List.mem_cons, Statement.start.injEq]
        refine ⟨?_, ?_⟩
        · rintro (hp | hp)
          · exact .inr (.inl (Option.some_inj.1 hp).symm)
          · exact .inr (.inr hp)
        · rintro (hp | rfl | hp)
          · exact .inl (congrArg some (h p r (.inl hp) (.inr List.mem_cons_self)).symm)
          · exact .inl rfl
          · exact .inr hp
      | final r => simp [add]
      | state r => simp [add]
      | edge e => simp [add]
    have hrest : OneStart (d.add s).start l := fun p q hp hq =>
      h p q ((hnamed p).1 hp) ((hnamed q).1 hq)
    exact (ih hrest).trans (hnamed q)

theorem addAll_append : d.addAll (l ++ l') = (d.addAll l).addAll l' := List.foldl_append

/-- Nothing is contradicted if nothing is contradicted in either of two parts. -/
theorem oneStart_append_iff :
    OneStart d.start (l ++ l') ↔ OneStart d.start l ∧ OneStart (d.addAll l).start l' := by
  have hmem : ∀ (p : State), (d.start = some p ∨ .start p ∈ l ++ l') ↔
      ((d.start = some p ∨ .start p ∈ l) ∨ .start p ∈ l') := fun p => by
    rw [List.mem_append, or_assoc]
  refine ⟨fun h => ?_, fun ⟨hl, hl'⟩ => ?_⟩
  · have hl : OneStart d.start l := fun p q hp hq =>
      h p q ((hmem p).2 (.inl hp)) ((hmem q).2 (.inl hq))
    refine ⟨hl, fun p q hp hq => h p q ((hmem p).2 ?_) ((hmem q).2 ?_)⟩
    · rwa [start_addAll_eq_some_iff hl] at hp
    · rwa [start_addAll_eq_some_iff hl] at hq
  · intro p q hp hq
    rw [hmem, ← start_addAll_eq_some_iff hl] at hp hq
    exact hl' p q hp hq

theorem oneStart_nil (declared : Option State) : OneStart declared [] := by
  intro p q hp hq
  rw [or_iff_left List.not_mem_nil] at hp hq
  exact Option.some_inj.1 (hp.symm.trans hq)

/-- A blank line says nothing. -/
theorem Line.eq_nil (h : Line l text) (htext : text = []) : l = [] := by
  cases h with
  | blank => rfl
  | bare _ hname => exact absurd (List.append_eq_nil_iff.1 htext).2 hname.ne_nil
  | arrow _ _ _ _ => exact absurd (List.append_eq_nil_iff.1 htext).2 (List.cons_ne_nil _ _)

/-- A line is read exactly if it has the format and contradicts nothing, and then as what it
says. -/
theorem addLine_eq_ok_iff : d.addLine number line = .ok d' ↔
    ∃ l, Line l (trimmed line) ∧ OneStart d.start l ∧ d' = d.addAll l := by
  rw [addLine]
  split
  · rename_i hempty
    have hnil := List.isEmpty_iff.1 hempty
    refine ⟨?_, ?_⟩
    · rintro ⟨⟩
      exact ⟨[], hnil ▸ .blank, oneStart_nil _, rfl⟩
    · rintro ⟨l, hline, _, rfl⟩
      rw [hline.eq_nil hnil]
      rfl
  · rename_i hne
    have hread : ∀ l, Line l (trimmed line) ∧ OneStart d.start l ↔
        statementsOfLine d.start line = .ok l := fun l =>
      (statementsOfLine_eq_ok_iff.trans (and_iff_right fun h => hne (List.isEmpty_iff.2 h))).symm
    simp only [← and_assoc, hread]
    cases statementsOfLine d.start line with
    | error reason =>
      constructor
      · rintro ⟨⟩
      · rintro ⟨_, ⟨⟩, _⟩
    | ok l =>
      refine ⟨fun h => ⟨l, rfl, (Except.ok.inj h).symm⟩, ?_⟩
      rintro ⟨_, ⟨⟩, rfl⟩
      rfl

/-- A line that cannot be read is reported with its number and content. -/
theorem addLine_eq_error {e : Error} (h : d.addLine number line = .error e) :
    ∃ reason, e = .malformed number (String.ofList (trimmed line)) reason := by
  rw [addLine] at h
  split at h
  · cases h
  · split at h
    · cases h
    · rename_i reason _
      cases h
      exact ⟨reason, rfl⟩

/-- What lines say is what the first line says and what the others say after it. -/
theorem saysAfter_cons_iff : SaysAfter d.start (line :: rows) statements ↔
    ∃ l l', Line l (trimmed line) ∧ OneStart d.start l ∧ SaysAfter (d.addAll l).start rows l' ∧
      statements = l ++ l' := by
  refine ⟨?_, ?_⟩
  · rintro ⟨said, hsaid, rfl, hone⟩
    obtain ⟨l, rest, hline, hrest, rfl⟩ := List.forall₂_cons_left_iff.1 hsaid
    obtain ⟨hl, hone⟩ := oneStart_append_iff.1 hone
    exact ⟨l, rest.flatten, hline, hl, ⟨rest, hrest, rfl, hone⟩, rfl⟩
  · rintro ⟨l, _, hline, hl, ⟨said, hsaid, rfl, hone⟩, rfl⟩
    exact ⟨l :: said, .cons hline hsaid, rfl, oneStart_append_iff.2 ⟨hl, hone⟩⟩

theorem saysAfter_nil_iff {declared : Option State} :
    SaysAfter declared [] statements ↔ statements = [] := by
  refine ⟨?_, ?_⟩
  · rintro ⟨said, hsaid, rfl, _⟩
    rw [List.forall₂_nil_left_iff.1 hsaid]
    rfl
  · rintro rfl
    exact ⟨[], .nil, rfl, oneStart_nil _⟩

/-- Lines are read exactly if they have the format, and then as what they say. -/
theorem addLines_eq_ok_iff : d.addLines number rows = .ok d' ↔
    ∃ statements, SaysAfter d.start rows statements ∧ d' = d.addAll statements := by
  induction rows generalizing d number with
  | nil =>
    simp only [saysAfter_nil_iff, exists_eq_left]
    exact ⟨fun h => (Except.ok.inj h).symm, fun h => congrArg Except.ok h.symm⟩
  | cons line rows ih =>
    have hcons : d.addLines number (line :: rows) = .ok d' ↔
        ∃ d₁, d.addLine number line = .ok d₁ ∧ d₁.addLines (number + 1) rows = .ok d' := by
      rw [addLines]
      cases d.addLine number line <;> simp
    simp only [hcons, addLine_eq_ok_iff, ih, saysAfter_cons_iff]
    refine ⟨?_, ?_⟩
    · rintro ⟨_, ⟨l, hline, hl, rfl⟩, l', hrest, rfl⟩
      exact ⟨_, ⟨l, l', hline, hl, hrest, rfl⟩, addAll_append.symm⟩
    · rintro ⟨_, ⟨l, l', hline, hl, hrest, rfl⟩, rfl⟩
      exact ⟨_, ⟨l, hline, hl, rfl⟩, l', hrest, addAll_append⟩

/-- Of lines that cannot be read, the first that does not fit is reported. -/
theorem addLines_eq_error {e : Error} (h : d.addLines number rows = .error e) :
    ∃ i line reason, rows[i]? = some line ∧
      e = .malformed (number + i) (String.ofList (trimmed line)) reason ∧
      (∃ statements, SaysAfter d.start (rows.take i) statements) ∧
      ¬∃ statements, SaysAfter d.start (rows.take (i + 1)) statements := by
  induction rows generalizing d number with
  | nil => cases h
  | cons line rows ih =>
    rw [addLines] at h
    cases hline : d.addLine number line with
    | error e' =>
      rw [hline] at h
      cases h
      obtain ⟨reason, rfl⟩ := addLine_eq_error hline
      refine ⟨0, line, reason, rfl, rfl, ⟨[], saysAfter_nil_iff.2 rfl⟩, ?_⟩
      rintro ⟨_, hsays⟩
      obtain ⟨l, _, hl, hone, _⟩ := saysAfter_cons_iff.1 hsays
      rw [addLine_eq_ok_iff.2 ⟨l, hl, hone, rfl⟩] at hline
      cases hline
    | ok d₁ =>
      rw [hline] at h
      obtain ⟨i, broken, reason, hi, rfl, ⟨l', hbefore⟩, hbreak⟩ := ih h
      obtain ⟨l, hl, hone, rfl⟩ := addLine_eq_ok_iff.1 hline
      refine ⟨i + 1, broken, reason, hi, by rw [Nat.add_assoc, Nat.add_comm 1], ?_, ?_⟩
      · exact ⟨_, saysAfter_cons_iff.2 ⟨l, l', hl, hone, hbefore, rfl⟩⟩
      · rintro ⟨_, hsays⟩
        obtain ⟨l₁, l₂, hl₁, hone₁, hrest, _⟩ := saysAfter_cons_iff.1 hsays
        -- the line says one thing only, as it is read in one way
        have hsame := hline.symm.trans (addLine_eq_ok_iff.2 ⟨l₁, hl₁, hone₁, rfl⟩)
        rw [Except.ok.inj hsame] at hbreak
        exact hbreak ⟨l₂, hrest⟩

/-- **A text is read exactly if it has the format, and then as what it says.**  Otherwise the first
line that does not fit is reported. -/
theorem ofText_exact (text : String) :
    (∀ d, ofText text = .ok d ↔
      ∃ statements, Says (lines text.toList) statements ∧ d = empty.addAll statements) ∧
    ∀ e, ofText text = .error e → ∃ i line reason, (lines text.toList)[i]? = some line ∧
      e = .malformed (i + 1) (String.ofList (trimmed line)) reason ∧
      (∃ statements, Says ((lines text.toList).take i) statements) ∧
      ¬∃ statements, Says ((lines text.toList).take (i + 1)) statements := by
  refine ⟨fun d => addLines_eq_ok_iff, fun e h => ?_⟩
  obtain ⟨i, line, reason, hline, rfl, hbefore, hbreak⟩ := addLines_eq_error h
  exact ⟨i, line, reason, hline, by rw [Nat.add_comm], hbefore, hbreak⟩

example : ofText "->()s->as| b t" = .ok (empty.addAll [.start "s", .final "s", .state "s",
    .edge ⟨"s", 'a', "s"⟩, .edge ⟨"s", 'b', "t"⟩]) := by cbv

/-- The lines fit one by one, but not together. -/
def twoStarts : String := "-> s -> a t\n\n t\n () -> t"

theorem ofText_exact_twoStarts :
    ofText twoStarts = .error (.malformed 4 "() -> t" "start state s has already been declared") ∧
    ∃ i line reason, (lines twoStarts.toList)[i]? = some line ∧
      Error.malformed 4 "() -> t" "start state s has already been declared"
        = .malformed (i + 1) (String.ofList (trimmed line)) reason ∧
      (∃ statements, Says ((lines twoStarts.toList).take i) statements) ∧
      ¬∃ statements, Says ((lines twoStarts.toList).take (i + 1)) statements :=
  ⟨by cbv, (ofText_exact twoStarts).2 _ (by cbv)⟩

end Description

end Automata
