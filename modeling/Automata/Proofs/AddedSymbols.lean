import Automata.Proofs.TableIndependence
import Mathlib

/-!
# What reading a grammar does to the table

Symbols are asked for in the middle of reading, and a table does not take back what it has given.
That a text leaves no trace unless it is read to its end is therefore owed to the order of things:
all lines are cut before the first symbol is asked for, and once they are cut nothing can go wrong
any more.  What a text that is read leaves behind are the symbols of its grammar.

## What is here

* `SymbolTable.Gains` — a table with labels added at its end that it did not have.
* `Asks` — computations that ask for nothing but given labels, with `Asks.bind` and `Asks.mapM`, by
  which they are followed, and `Grammar.asks_ofText` — reading a text asks for what it says.
* `Grammar.run_ofText_of_error`, `Grammar.run_ofText_of_blank` — the two ways in which reading
  fails.
* `Grammar.StandsFor.exists_mem_labels`, `Grammar.StandsFor.mem_labels_iff` — all symbols of a
  grammar stand for labels, and these are the labels that it is written with.
* `Grammar.ofText_atomic` — **reading changes the table only if it succeeds, and then it adds the
  symbols of the grammar that are missing.**
-/

set_option autoImplicit false

namespace Automata

open Text

/-! ## Tables that gain labels -/

namespace SymbolTable

variable {labels : Set Label} {t t' t'' : SymbolTable} {s : Symbol} {l : Label}
  {kind : SymbolKind} {name : String}

/-- The table has labels added at its end, all of them from `labels`, none that it had before and
none twice. -/
def Gains (labels : Set Label) (t t' : SymbolTable) : Prop :=
  ∃ added, t'.entries = t.entries ++ added ∧ added.Nodup ∧
    ∀ l ∈ added, l ∉ t.entries ∧ l ∈ labels

namespace Gains

theorem refl : Gains labels t t := ⟨[], (List.append_nil _).symm, .nil, nofun⟩

theorem trans (h : Gains labels t t') (h' : Gains labels t' t'') : Gains labels t t'' := by
  obtain ⟨added, hentries, hnodup, hadded⟩ := h
  obtain ⟨added', hentries', hnodup', hadded'⟩ := h'
  have hnew : ∀ l ∈ added', l ∉ t.entries ∧ l ∉ added := by
    intro l hl
    have hnot := (hadded' l hl).1
    rwa [hentries, List.mem_append, not_or] at hnot
  refine ⟨added ++ added', ?_, ?_, fun l hl => ?_⟩
  · rw [hentries', hentries, List.append_assoc]
  · exact hnodup.append hnodup' fun l hl hl' => (hnew l hl').2 hl
  · rcases List.mem_append.1 hl with hl | hl
    · exact hadded l hl
    · exact ⟨(hnew l hl).1, (hadded' l hl).2⟩

/-- One more symbol is asked for. -/
theorem intern (h : (Automata.intern kind name).run t = .ok s t') (hl : (kind, name) ∈ labels) :
    Gains labels t t' := by
  rcases (intern_cases h).2.2 with rfl | ⟨hnew, hentries⟩
  · exact refl
  · refine ⟨[(kind, name)], hentries, List.nodup_singleton _, fun l hmem => ?_⟩
    obtain rfl := List.mem_singleton.1 hmem
    exact ⟨hnew, hl⟩

/-- Symbols keep what they stand for. -/
theorem standsFor (h : Gains labels t t') (hs : t.StandsFor s l) : t'.StandsFor s l := by
  obtain ⟨added, hentries, _⟩ := h
  refine ⟨hs.1, ?_⟩
  rw [hentries, List.getElem?_append_left (List.getElem?_eq_some_iff.1 hs.2).1]
  exact hs.2

/-- A label that has a symbol keeps it. -/
theorem find?_eq (h : Gains labels t t') (hs : t.find? kind name = some s) :
    t'.find? kind name = some s := by
  obtain ⟨added, hentries, _⟩ := h
  obtain ⟨i, hi, rfl⟩ := Option.map_eq_some_iff.1 hs
  rw [find?, hentries, List.idxOf?, List.findIdx?_append, ← List.idxOf?, hi]
  rfl

end Gains

end SymbolTable

/-! ## Computations that ask for labels -/

variable {α β : Type}

/-- If it succeeds, the computation has asked the table for nothing but labels from `labels`. -/
def Asks (labels : Set Label) (x : Interning α) : Prop :=
  ∀ a t t', x.run t = .ok a t' → t.Gains labels t'

namespace Asks

variable {labels : Set Label}

theorem pure (a : α) : Asks labels (Pure.pure a : Interning α) := by
  intro b t t' h
  cases h
  exact .refl

/-- A computation is followed step by step. -/
theorem bind {x : Interning α} {f : α → Interning β} (hx : Asks labels x)
    (hf : ∀ a, Asks labels (f a)) : Asks labels (x >>= f) := by
  intro b t t' h
  rw [EStateM.run_bind] at h
  cases hrun : x.run t with
  | error e t₁ =>
    rw [hrun] at h
    cases h
  | ok a t₁ =>
    rw [hrun] at h
    exact (hx a t t₁ hrun).trans (hf a b t₁ t' h)

theorem throw (e : Error) : Asks labels (MonadExcept.throw e : Interning α) := by
  intro a t t' h
  cases h

theorem mapM {f : α → Interning β} {as : List α} (h : ∀ a ∈ as, Asks labels (f a)) :
    Asks labels (as.mapM f) := by
  induction as with
  | nil => exact .pure []
  | cons a as ih =>
    obtain ⟨ha, has⟩ := List.forall_mem_cons.1 h
    rw [List.mapM_cons]
    exact .bind ha fun b => .bind (ih has) fun bs => .pure (b :: bs)

theorem intern {kind : SymbolKind} {name : String} (hl : (kind, name) ∈ labels) :
    Asks labels (intern kind name) := fun _ _ _ h => .intern h hl

end Asks

namespace Grammar

variable {labels : Set Label} {lefts : List (List Char)} {head first : RuleLine}
  {heads : List RuleLine} {text : String} {g : Grammar} {table table' : SymbolTable} {e : Error}

/-! ## Reading asks for what the text says -/

theorem asks_rightSideOfText {p : List Char} (h : ∀ l ∈ labelsOf lefts (words p), l ∈ labels) :
    Asks labels (rightSideOfText lefts p) := by
  rw [rightSideOfText]
  by_cases halone : words p = ["eps".toList] ∨ words p = ["ε".toList]
  · rw [if_pos (standsAlone_iff.2 halone)]
    exact .pure []
  · rw [labelsOf, if_neg halone] at h
    rw [if_neg (mt standsAlone_iff.1 halone)]
    refine .mapM fun name hname => .intern ?_
    exact labelOf_eq lefts name ▸ h _ (List.mem_map_of_mem hname)

theorem asks_rulesOfLine
    (h : ∀ n ∈ writtenRules lefts head, ∀ l, l = n.left ∨ l ∈ n.right → l ∈ labels) :
    Asks labels (rulesOfLine lefts head) := by
  obtain ⟨n, ns, hns, hn⟩ := exists_writtenRules_eq_cons lefts head
  rw [rulesOfLine]
  refine .bind (.intern (h n (hns ▸ List.mem_cons_self) _ (.inl hn.symm))) fun left => ?_
  refine .mapM fun p hp => .bind (asks_rightSideOfText fun l hl => ?_) fun right => .pure _
  exact h _ (List.mem_map_of_mem hp) l (.inr hl)

/-- **Reading a text asks for the labels that the text is written with.** -/
theorem asks_ofText (h : Heads (first :: heads) (lines text.toList)) :
    Asks (writtenGrammar first heads).labels (ofText text) := by
  have hread : (ofExcept (ruleLinesOfText 1 (lines text.toList)) : Interning (List RuleLine)) =
      pure (first :: heads) := by
    rw [h.ruleLinesOfText_eq_ok]
    rfl
  have hline : ∀ head ∈ first :: heads, Asks (writtenGrammar first heads).labels
      (rulesOfLine ((first :: heads).map RuleLine.left) head) := fun head hmem =>
    asks_rulesOfLine fun n hn l hl => .inr ⟨n, List.mem_flatMap.2 ⟨head, hmem, hn⟩, hl⟩
  rw [ofText, hread, pure_bind]
  refine .bind (.mapM hline) fun rules => ?_
  dsimp only
  split
  · exact .throw .missingStart
  · exact .pure _

/-! ## How reading fails -/

theorem exists_malformed {number : Nat} {rows : List (List Char)}
    (h : ruleLinesOfText number rows = .error e) :
    ∃ line content reason, e = .malformed line content reason := by
  induction rows generalizing number with
  | nil => cases h
  | cons row rows ih =>
    rcases line_cases row with hblank | ⟨head, hhead⟩ | ⟨reason, hfault⟩
    · rw [ruleLinesOfText_blank hblank] at h
      exact ih h
    · rw [ruleLinesOfText_writtenAs hhead] at h
      cases hrest : ruleLinesOfText (number + 1) rows with
      | error e' =>
        rw [hrest] at h
        cases h
        exact ih hrest
      | ok heads =>
        rw [hrest] at h
        cases h
    · rw [ruleLinesOfText_fault hfault] at h
      cases h
      exact ⟨_, _, _, rfl⟩

/-- Something is wrong about one of the lines then. -/
theorem exists_lineFault {number : Nat} {rows : List (List Char)}
    (h : ruleLinesOfText number rows = .error e) :
    ∃ row ∈ rows, ∃ reason, LineFault reason row := by
  by_contra hnone
  obtain ⟨heads, hheads⟩ := exists_heads fun row hrow reason hfault =>
    hnone ⟨row, hrow, reason, hfault⟩
  rw [hheads.ruleLinesOfText_eq_ok] at h
  cases h

/-- Lines that cannot be cut are refused before a symbol is asked for. -/
theorem run_ofText_of_error (h : ruleLinesOfText 1 (lines text.toList) = .error e)
    (table : SymbolTable) : (ofText text).run table = .error e table := by
  rw [ofText, h]
  rfl

theorem run_ofText_of_blank (h : ruleLinesOfText 1 (lines text.toList) = .ok [])
    (table : SymbolTable) : (ofText text).run table = .error .missingStart table := by
  rw [ofText, h]
  rfl

/-! ## The symbols of a grammar -/

theorem mem_terminals {s : Symbol} :
    s ∈ g.terminals ↔ ∃ r, r ∈ g.rules ∧ s ∈ r.right ∧ s.isTerminal = true := by
  rw [terminals, FinSet.mem_ofList, List.mem_filter, rightSymbols, List.mem_flatMap]
  simp only [FinSet.mem_toList, ← and_assoc, exists_and_right]

/-- A symbol is one of the grammar if it is the root or in one of the rules. -/
theorem mem_symbols_iff {s : Symbol} : s ∈ g.nonterminals ∨ s ∈ g.terminals ↔
    s = g.root ∨ ∃ r, r ∈ g.rules ∧ (s = r.left ∨ s ∈ r.right) := by
  rw [mem_nonterminals, mem_terminals]
  constructor
  · rintro ((hs | ⟨r, hr, hs⟩ | ⟨r, hr, hs, _⟩) | ⟨r, hr, hs, _⟩)
    · exact .inl hs
    · exact .inr ⟨r, hr, .inl hs.symm⟩
    · exact .inr ⟨r, hr, .inr hs⟩
    · exact .inr ⟨r, hr, .inr hs⟩
  · rintro (hs | ⟨r, hr, hs | hs⟩)
    · exact .inl (.inl hs)
    · exact .inl (.inr (.inl ⟨r, hr, hs.symm⟩))
    · cases hkind : s.kind with
      | terminal => exact .inr ⟨r, hr, hs, Symbol.isTerminal_iff.2 hkind⟩
      | nonterminal => exact .inl (.inr (.inr ⟨r, hr, hs, Symbol.isNonterminal_iff.2 hkind⟩))

/-- Every symbol of a grammar stands for a label that the grammar is written with. -/
theorem StandsFor.exists_mem_labels {w : WrittenGrammar} {s : Symbol} (h : g.StandsFor table w)
    (hs : s ∈ g.nonterminals ∨ s ∈ g.terminals) : ∃ l ∈ w.labels, table.StandsFor s l := by
  rcases mem_symbols_iff.1 hs with rfl | ⟨r, hr, hs⟩
  · exact ⟨w.root, .inl rfl, h.root⟩
  · obtain ⟨n, hn, hrn⟩ := h.rule r hr
    rcases hs with rfl | hs
    · exact ⟨n.left, .inr ⟨n, hn, .inl rfl⟩, hrn.left⟩
    · obtain ⟨l, hl, hsl⟩ := exists_right_of_forall₂ hrn.right hs
      exact ⟨l, .inr ⟨n, hn, .inr hl⟩, hsl⟩

/-- The labels that a grammar is written with are those of its symbols. -/
theorem StandsFor.mem_labels_iff {w : WrittenGrammar} (h : g.StandsFor table w) {l : Label} :
    l ∈ w.labels ↔ ∃ s, (s ∈ g.nonterminals ∨ s ∈ g.terminals) ∧ table.StandsFor s l := by
  constructor
  · simp only [mem_symbols_iff]
    rintro (rfl | ⟨n, hn, hl⟩)
    · exact ⟨g.root, .inl rfl, h.root⟩
    · obtain ⟨r, hr, hrn⟩ := h.written n hn
      rcases hl with rfl | hl
      · exact ⟨r.left, .inr ⟨r, hr, .inl rfl⟩, hrn.left⟩
      · obtain ⟨s, hs, hsl⟩ := exists_left_of_forall₂ hrn.right hl
        exact ⟨s, .inr ⟨r, hr, .inr hs⟩, hsl⟩
  · rintro ⟨s, hs, hsl⟩
    obtain ⟨l', hl', hsl'⟩ := h.exists_mem_labels hs
    exact hsl.label_eq hsl' ▸ hl'

/-! ## All or nothing -/

/-- **Reading a text changes the table only if it succeeds.**  A text that is refused has a line
that does not have the format, or says nothing, and leaves the table as it was.  A text that is read
leaves all symbols as they were.  Afterwards the table has all symbols of the grammar that the text
describes, and what it has in addition are those of them that it did not have before, each of them
once. -/
theorem ofText_atomic (text : String) (table : SymbolTable) :
    (∀ e table', (ofText text).run table = .error e table' → table' = table ∧
      ((∃ line content reason, e = .malformed line content reason) ∧
          (∃ row ∈ lines text.toList, ∃ reason, LineFault reason row) ∨
        e = .missingStart ∧ ∀ row ∈ lines text.toList, Blank row)) ∧
    ∀ g table', (ofText text).run table = .ok g table' →
      (∀ s l, table.StandsFor s l → table'.StandsFor s l) ∧
      (∀ kind name s, table.find? kind name = some s → table'.find? kind name = some s) ∧
      (∃ w, Says (lines text.toList) w ∧ g.StandsFor table' w) ∧
      (∀ s, s ∈ g.nonterminals ∨ s ∈ g.terminals → table'.Has s) ∧
      ∃ added, table'.entries = table.entries ++ added ∧ added.Nodup ∧
        ∀ l, l ∈ added ↔ l ∉ table.entries ∧
          ∃ s, (s ∈ g.nonterminals ∨ s ∈ g.terminals) ∧ table'.StandsFor s l := by
  cases hlines : ruleLinesOfText 1 (lines text.toList) with
  | error e =>
    have hrun := run_ofText_of_error hlines table
    refine ⟨fun e' table' h => ?_, fun g table' h => ?_⟩
    · cases hrun.symm.trans h
      exact ⟨rfl, .inl ⟨exists_malformed hlines, exists_lineFault hlines⟩⟩
    · cases hrun.symm.trans h
  | ok all =>
    have hheads := heads_of_ruleLinesOfText hlines
    cases all with
    | nil =>
      have hrun := run_ofText_of_blank hlines table
      refine ⟨fun e table' h => ?_, fun g table' h => ?_⟩
      · cases hrun.symm.trans h
        exact ⟨rfl, .inr ⟨rfl, hheads.eq_nil_iff.1 rfl⟩⟩
      · cases hrun.symm.trans h
    | cons first heads =>
      obtain ⟨g₀, table₀, hrun, _, _, hg⟩ := obtains_ofText hheads table
      refine ⟨fun e table' h => ?_, fun g table' h => ?_⟩
      · cases hrun.symm.trans h
      · have hgains := asks_ofText hheads g table table' h
        cases hrun.symm.trans h
        have hstands := hg table₀ .refl
        have hhas : ∀ s, s ∈ g₀.nonterminals ∨ s ∈ g₀.terminals → table₀.Has s := by
          intro s hs
          obtain ⟨l, _, hsl⟩ := hstands.exists_mem_labels hs
          exact hsl.has
        refine ⟨fun s l => hgains.standsFor, fun kind name s => hgains.find?_eq,
          ⟨_, says_writtenGrammar hheads, hstands⟩, hhas, ?_⟩
        obtain ⟨added, hentries, hnodup, hadded⟩ := hgains
        refine ⟨added, hentries, hnodup, fun l => ?_⟩
        rw [← hstands.mem_labels_iff]
        refine ⟨hadded l, fun ⟨hnew, hl⟩ => ?_⟩
        have hmem := hstands.mem_entries hl
        rw [hentries, List.mem_append] at hmem
        exact hmem.resolve_left hnew

/-- A table in which a name of the texts below is taken by the other kind. -/
def halfTable : SymbolTable := ⟨[(.terminal, "T"), (.nonterminal, "S")]⟩

/-- The fault comes after a line with symbols. -/
def lateFault : String := "S -> a T\nT a"

/-- Some of the symbols are new, and all of them occur more than once. -/
def halfKnown : String := "S -> a T | a a\nT -> S T"

theorem halfKnown_atomic :
    (∃ e table', (ofText lateFault).run halfTable = .error e table' ∧ table' = halfTable ∧
      ((∃ line content reason, e = .malformed line content reason) ∧
          (∃ row ∈ lines lateFault.toList, ∃ reason, LineFault reason row) ∨
        e = .missingStart ∧ ∀ row ∈ lines lateFault.toList, Blank row)) ∧
    ∃ g table', (ofText halfKnown).run halfTable = .ok g table' ∧
      (∀ s l, halfTable.StandsFor s l → table'.StandsFor s l) ∧
      (∃ w, Says (lines halfKnown.toList) w ∧ g.StandsFor table' w) ∧
      (∀ s, s ∈ g.nonterminals ∨ s ∈ g.terminals → table'.Has s) ∧
      ∃ added, table'.entries = halfTable.entries ++ added ∧ added.Nodup ∧
        ∀ l, l ∈ added ↔ l ∉ halfTable.entries ∧
          ∃ s, (s ∈ g.nonterminals ∨ s ∈ g.terminals) ∧ table'.StandsFor s l := by
  have hfault : (ofText lateFault).run halfTable = .error
      (.malformed 2 "T a" "expected a rule of the form LHS -> RHS") halfTable := by cbv
  have hread : (ofText halfKnown).run halfTable = .ok
      ⟨⟨1, .nonterminal⟩, FinSet.ofList [⟨⟨1, .nonterminal⟩, [⟨2, .terminal⟩, ⟨2, .terminal⟩]⟩,
        ⟨⟨1, .nonterminal⟩, [⟨2, .terminal⟩, ⟨3, .nonterminal⟩]⟩,
        ⟨⟨3, .nonterminal⟩, [⟨1, .nonterminal⟩, ⟨3, .nonterminal⟩]⟩]⟩
      ⟨[(.terminal, "T"), (.nonterminal, "S"), (.terminal, "a"), (.nonterminal, "T")]⟩ := by cbv
  obtain ⟨hkept, _, hsays, hhas, hadded⟩ := (ofText_atomic halfKnown halfTable).2 _ _ hread
  have hrefused := (ofText_atomic lateFault halfTable).1 _ _ hfault
  exact ⟨⟨_, _, hfault, hrefused⟩, _, _, hread, hkept, hsays, hhas, hadded⟩

end Grammar

end Automata
