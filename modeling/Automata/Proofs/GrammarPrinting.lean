import Automata.Proofs.Description
import Automata.Proofs.GrammarFormat

/-!
# Printed grammars can be read again

A grammar that was read is written with one line for each left side, and which names are
nonterminals is found again by looking at all lines.  This is not so for every grammar: a
nonterminal without rules would become a terminal.  Reading makes no such grammars, and no names
that would be taken for something else, so that reading what was printed gives the same grammar
again, and on another table a grammar of the same names.

## What is here

* `WrittenGrammar.Legible` — what makes sure that a grammar can be read again, and
  `legible_writtenGrammar` — it holds of grammars that were read.
* `shownRight`, `shownLine`, `Grammar.shown` — the text of a grammar whose symbols have names, and
  `Grammar.render_eq_shown` — it is what is printed.
* `writtenRules_shownHead`, `Grammar.heads_shown` — what is read from a line that was printed, and
  that the text consists of such lines.
* `Grammar.writtenGrammar_shown` — **the text says what the grammar stands for.**
* `Grammar.printed_reads_back` — printed grammars are read as what they were.
-/

set_option autoImplicit false

namespace Automata

open Text

/-! ## Legible grammars -/

/-- A name without blanks, which is not empty. -/
def IsWord (name : String) : Prop := name.toList ≠ [] ∧ Solid name.toList

/-- Every name is found again in the text of the grammar, with its kind. -/
structure WrittenGrammar.Legible (w : WrittenGrammar) : Prop where
  /-- The root has rules. -/
  root_left : ∃ n ∈ w.rules, n.left = w.root
  /-- Left sides are nonterminals. -/
  left_kind : ∀ n ∈ w.rules, n.left.1 = .nonterminal
  /-- Left sides can stand in front of an arrow. -/
  left_name : ∀ n ∈ w.rules, IsWord n.left.2 ∧ ¬HasArrow n.left.2.toList
  /-- Other names can stand between bars. -/
  right_name : ∀ n ∈ w.rules, ∀ l ∈ n.right, IsWord l.2 ∧ '|' ∉ l.2.toList
  /-- A name is one of a nonterminal exactly if it is a left side. -/
  right_kind : ∀ n ∈ w.rules, ∀ l ∈ n.right,
    l.1 = .nonterminal ↔ ∃ n' ∈ w.rules, n'.left.2 = l.2
  /-- No alternative can be taken for the empty one. -/
  not_alone : ∀ n ∈ w.rules, ∀ l, n.right = [l] → l.2 ≠ "eps" ∧ l.2 ≠ "ε"

/-- Every name of the grammar can be told from what stands around it in the text. -/
structure WrittenGrammar.Spelled (w : WrittenGrammar) : Prop where
  /-- Left sides can stand in front of an arrow. -/
  left_name : ∀ n ∈ w.rules, IsWord n.left.2 ∧ ¬HasArrow n.left.2.toList
  /-- Other names can stand between bars. -/
  right_name : ∀ n ∈ w.rules, ∀ l ∈ n.right, IsWord l.2 ∧ '|' ∉ l.2.toList

theorem WrittenGrammar.Legible.spelled {w : WrittenGrammar} (hw : w.Legible) : w.Spelled :=
  ⟨hw.left_name, hw.right_name⟩

section Legible

variable {lefts names : List (List Char)} {l : Label} {first : RuleLine} {heads : List RuleLine}
  {rows : List (List Char)}

theorem mem_labelsOf (h : l ∈ labelsOf lefts names) : ∃ name ∈ names, l = labelOf lefts name := by
  rw [labelsOf] at h
  split at h
  · exact absurd h List.not_mem_nil
  · obtain ⟨name, hname, rfl⟩ := List.mem_map.1 h
    exact ⟨name, hname, rfl⟩

theorem ne_of_labelsOf_eq_singleton (h : labelsOf lefts names = [l]) :
    l.2 ≠ "eps" ∧ l.2 ≠ "ε" := by
  rw [labelsOf] at h
  split at h
  · cases h
  · rename_i halone
    rw [not_or] at halone
    obtain ⟨name, rfl, rfl⟩ := List.map_eq_singleton_iff.1 h
    refine ⟨fun heps => halone.1 ?_, fun heps => halone.2 ?_⟩
    · rw [← heps]
      simp [labelOf]
    · rw [← heps]
      simp [labelOf]

namespace Grammar

/-- The left sides of the rules are those of the lines. -/
theorem exists_left_iff {name : List Char} : (∃ n ∈ (writtenGrammar first heads).rules,
    n.left.2 = String.ofList name) ↔ name ∈ (first :: heads).map RuleLine.left := by
  rw [List.mem_map]
  refine ⟨?_, ?_⟩
  · rintro ⟨n, hn, hname⟩
    obtain ⟨head, hhead, p, _, rfl⟩ := mem_rules_writtenGrammar.1 hn
    exact ⟨head, hhead, String.ofList_injective hname⟩
  · rintro ⟨head, hhead, rfl⟩
    obtain ⟨n, hn, hleft⟩ := exists_rule_of_mem hhead
    exact ⟨n, hn, by rw [hleft]⟩

/-- **Grammars that were read are legible.** -/
theorem legible_writtenGrammar (h : Heads (first :: heads) rows) :
    (writtenGrammar first heads).Legible where
  root_left := exists_rule_of_mem List.mem_cons_self
  left_kind n hn := by
    obtain ⟨head, _, p, _, rfl⟩ := mem_rules_writtenGrammar.1 hn
    rfl
  left_name n hn := by
    obtain ⟨head, hhead, p, _, rfl⟩ := mem_rules_writtenGrammar.1 hn
    obtain ⟨_, _, before, hbefore, _, htrim, hne, hsolid⟩ := h.mem_iff.1 hhead
    have hinfix : head.left <:+: before := htrim ▸ trimmed_infix before
    rw [IsWord, String.toList_ofList]
    exact ⟨⟨hne, hsolid⟩, fun harrow => hbefore (harrow.trans hinfix)⟩
  right_name n hn l hl := by
    obtain ⟨head, _, p, hp, rfl⟩ := mem_rules_writtenGrammar.1 hn
    obtain ⟨name, hname, rfl⟩ := mem_labelsOf hl
    obtain ⟨hsolid, hne, hsub⟩ := solid_of_mem_words hname
    rw [labelOf, IsWord, String.toList_ofList]
    exact ⟨⟨hne, hsolid⟩, fun hbar => not_mem_of_mem_pieces hp (hsub hbar)⟩
  right_kind n hn l hl := by
    obtain ⟨head, _, p, _, rfl⟩ := mem_rules_writtenGrammar.1 hn
    obtain ⟨name, _, rfl⟩ := mem_labelsOf hl
    exact ((labelFor_iff fun _ => Iff.rfl).2 rfl).2.trans exists_left_iff.symm
  not_alone n hn l hl := by
    obtain ⟨head, _, p, _, rfl⟩ := mem_rules_writtenGrammar.1 hn
    exact ne_of_labelsOf_eq_singleton hl

end Grammar

end Legible

/-! ## The text of a grammar -/

/-- An alternative as text. -/
def shownRight (names : List String) : String :=
  if names = [] then "eps" else " ".intercalate names

/-- A line as text. -/
def shownLine (left : String) (rights : List (List String)) : String :=
  left ++ " -> " ++ " | ".intercalate (rights.map shownRight)

/-- A line as it is cut at its arrow. -/
def shownHead (left : String) (rights : List (List String)) : RuleLine where
  left := left.toList
  rest := ' ' :: [' ', '|', ' '].intercalate (rights.map fun names => (shownRight names).toList)

section Shown

open Grammar

variable {lefts : List (List Char)} {names : List String} {labels : List Label} {left : String}
  {rights : List (List String)} {c : Char} {l l' : List Char}

theorem mem_intercalate {sep : List Char} {ls : List (List Char)} (h : c ∈ sep.intercalate ls) :
    c ∈ sep ∨ ∃ l ∈ ls, c ∈ l := by
  induction ls with
  | nil => exact absurd h List.not_mem_nil
  | cons l ls ih =>
    cases ls with
    | nil =>
      rw [List.intercalate_singleton] at h
      exact .inr ⟨l, List.mem_cons_self, h⟩
    | cons l' ls =>
      rw [List.intercalate_cons_cons, List.mem_append, List.mem_append] at h
      rcases h with (h | h) | h
      · exact .inr ⟨l, List.mem_cons_self, h⟩
      · exact .inl h
      · exact (ih h).imp_right fun ⟨v, hv, hc⟩ => ⟨v, List.mem_cons_of_mem _ hv, hc⟩

/-- The characters of an alternative. -/
theorem mem_shownRight (h : c ∈ (shownRight names).toList) :
    c ∈ "eps".toList ∨ c = ' ' ∨ ∃ name ∈ names, c ∈ name.toList := by
  rw [shownRight] at h
  split at h
  · exact .inl h
  · rw [String.toList_intercalate] at h
    rcases mem_intercalate h with hspace | ⟨w, hw, hc⟩
    · exact .inr (.inl (List.mem_singleton.1 hspace))
    · obtain ⟨name, hname, rfl⟩ := List.mem_map.1 hw
      exact .inr (.inr ⟨name, hname, hc⟩)

/-- An alternative has the words that it was made of. -/
theorem words_shownRight (h : ∀ name ∈ names, IsWord name) : words (shownRight names).toList =
    if names = [] then ["eps".toList] else names.map String.toList := by
  rw [shownRight]
  split
  · cbv
  · rw [String.toList_intercalate]
    refine words_intercalate fun w hw => ?_
    obtain ⟨name, hname, rfl⟩ := List.mem_map.1 hw
    exact ⟨(h name hname).2, (h name hname).1⟩

/-- The pieces of a line have the words of the alternatives. -/
theorem words_pieces_intercalate {ls : List (List Char)} (hne : ls ≠ [])
    (hbar : ∀ l ∈ ls, '|' ∉ l) :
    (pieces (· == '|') (' ' :: [' ', '|', ' '].intercalate ls)).map words = ls.map words := by
  have hspace : Blank [' '] := by decide
  have hnot : ∀ {l : List Char}, '|' ∉ l → ∀ c ∈ ' ' :: l, (c == '|') = false := by
    intro l hl c hc
    rw [beq_eq_false_iff_ne]
    rintro rfl
    rcases List.mem_cons.1 hc with hc | hc
    · cases hc
    · exact hl hc
  induction ls with
  | nil => exact absurd rfl hne
  | cons l ls ih =>
    obtain ⟨hl, hls⟩ := List.forall_mem_cons.1 hbar
    cases ls with
    | nil =>
      rw [List.intercalate_singleton, pieces_eq_singleton (hnot hl)]
      exact congrArg ([·]) (words_append hspace)
    | cons l' ls =>
      have hsplit : ' ' :: [' ', '|', ' '].intercalate (l :: l' :: ls) =
          ' ' :: (l ++ [' ']) ++ '|' :: ' ' :: [' ', '|', ' '].intercalate (l' :: ls) := by
        simp [List.intercalate_cons_cons]
      have hfirst : '|' ∉ l ++ [' '] := by simp [hl]
      rw [hsplit, pieces_append (hnot hfirst) rfl, List.map_cons, ih (List.cons_ne_nil _ _) hls,
        List.map_cons]
      exact congrArg (· :: _) ((words_append hspace).trans (words_append_blank hspace))

/-- A line is cut at the arrow that was printed. -/
theorem writtenAs_shownLine (hname : IsWord left) (harrow : ¬HasArrow left.toList) :
    (shownHead left rights).WrittenAs (shownLine left rights).toList := by
  have hspace : Blank [' '] := by decide
  refine ⟨left.toList ++ [' '], not_hasArrow_append harrow hspace, ?_,
    trimmed_append hname.2 hspace, hname⟩
  simp [shownLine, shownHead, String.toList_intercalate, Function.comp_def]

/-- The only blanks of a line are spaces. -/
theorem eq_space_of_mem_shownLine (hname : Solid left.toList)
    (hnames : ∀ names ∈ rights, ∀ name ∈ names, Solid name.toList)
    (hc : c ∈ (shownLine left rights).toList) (hblank : isBlank c = true) : c = ' ' := by
  have hsolid : ∀ {w : List Char}, Solid w → c ∉ w := by
    intro w hw hcw
    rw [hw c hcw] at hblank
    cases hblank
  have hspaces : ∀ {sep : List Char}, (sep.all fun c => !isBlank c || c == ' ') = true →
      c ∈ sep → c = ' ' := by
    intro sep hall hcsep
    simpa [hblank] using List.all_eq_true.1 hall c hcsep
  rw [shownLine, String.toList_append, String.toList_append, String.toList_intercalate,
    List.mem_append, List.mem_append] at hc
  rcases hc with (hc | hc) | hc
  · exact absurd hc (hsolid hname)
  · exact hspaces (by decide) hc
  · rcases mem_intercalate hc with hc | ⟨w, hw, hc⟩
    · exact hspaces (by decide) hc
    · obtain ⟨_, hright, rfl⟩ := List.mem_map.1 hw
      obtain ⟨names, hmem, rfl⟩ := List.mem_map.1 hright
      rcases mem_shownRight hc with hc | hc | ⟨name, hname', hc⟩
      · exact absurd hc (hsolid (by decide))
      · exact hc
      · exact absurd hc (hsolid (hnames names hmem name hname'))

/-- What is read from an alternative are the labels that it was made of. -/
theorem labelsOf_shownRight (hnames : ∀ l ∈ labels, IsWord l.2)
    (hkind : ∀ l ∈ labels, l.1 = .nonterminal ↔ l.2.toList ∈ lefts)
    (halone : ∀ l, labels = [l] → l.2 ≠ "eps" ∧ l.2 ≠ "ε") :
    labelsOf lefts (words (shownRight (labels.map Prod.snd)).toList) = labels := by
  have hwords : words (shownRight (labels.map Prod.snd)).toList = _ :=
    words_shownRight fun name hname => by
      obtain ⟨l, hl, rfl⟩ := List.mem_map.1 hname
      exact hnames l hl
  rw [hwords]
  split
  · rename_i hnil
    rw [List.map_eq_nil_iff.1 hnil, labelsOf, if_pos (.inl rfl)]
  · have hother : ∀ eps : String, (∀ l, labels = [l] → l.2 ≠ eps) →
        (labels.map Prod.snd).map String.toList ≠ [eps.toList] := by
      intro eps hne heq
      rw [List.map_map, List.map_eq_singleton_iff] at heq
      obtain ⟨l, hl, heq⟩ := heq
      exact hne l hl (String.toList_injective heq)
    have heps := hother "eps" fun l hl => (halone l hl).1
    have heps' := hother "ε" fun l hl => (halone l hl).2
    rw [labelsOf, if_neg (not_or.2 ⟨heps, heps'⟩), List.map_map, List.map_map]
    refine (List.map_congr_left fun l hl => ?_).trans (List.map_id _)
    exact ((labelFor_iff fun _ => Iff.rfl).1 ⟨String.ofList_toList.symm, hkind l hl⟩).symm

/-- What is read from a line are the alternatives that it was made of. -/
theorem writtenRules_shownHead (hne : rights ≠ [])
    (hnames : ∀ names ∈ rights, ∀ name ∈ names, '|' ∉ name.toList) :
    writtenRules lefts (shownHead left rights) = rights.map fun names =>
      ⟨(.nonterminal, left), labelsOf lefts (words (shownRight names).toList)⟩ := by
  have hbar : ∀ l ∈ rights.map fun names => (shownRight names).toList, '|' ∉ l := by
    intro l hl hbar
    obtain ⟨names, hmem, rfl⟩ := List.mem_map.1 hl
    rcases mem_shownRight hbar with hc | hc | ⟨name, hname, hc⟩
    · exact absurd hc (by decide)
    · exact absurd hc (by decide)
    · exact hnames names hmem name hname hc
  have hpieces := words_pieces_intercalate (mt List.map_eq_nil_iff.1 hne) hbar
  have hmap : writtenRules lefts (shownHead left rights) =
      ((pieces (· == '|') (shownHead left rights).rest).map words).map fun ws =>
        ⟨(.nonterminal, left), labelsOf lefts ws⟩ := by
    rw [List.map_map, writtenRules, shownHead, String.ofList_toList]
    rfl
  rw [hmap, shownHead, hpieces, List.map_map, List.map_map]
  rfl

end Shown

/-- The name of a symbol of the table. -/
def SymbolTable.nameIn (table : SymbolTable) (s : Symbol) : String :=
  (table.entries[s.number]?.map Prod.snd).getD ""

theorem SymbolTable.StandsFor.nameIn_eq {table : SymbolTable} {s : Symbol} {l : Label}
    (h : table.StandsFor s l) : table.nameIn s = l.2 := by
  rw [nameIn, h.2]
  rfl

namespace Grammar

/-- The alternatives of a symbol, with names. -/
def rightNames (table : SymbolTable) (g : Grammar) (s : Symbol) : List (List String) :=
  (g.alternatives s).map fun right => right.map table.nameIn

/-- The text of a grammar. -/
def shown (table : SymbolTable) (g : Grammar) : String :=
  "\n".intercalate (g.lineOrder.map fun s => shownLine (table.nameIn s) (g.rightNames table s))

section Printing

variable {g : Grammar} {table later : SymbolTable} {w : WrittenGrammar} {s : Symbol}
  {right : List Symbol}

theorem mem_alternatives : right ∈ g.alternatives s ↔ ⟨s, right⟩ ∈ g.rules := by
  simp only [alternatives, List.mem_map, List.mem_filter, decide_eq_true_eq, FinSet.mem_toList]
  refine ⟨?_, fun hr => ⟨_, ⟨hr, rfl⟩, rfl⟩⟩
  rintro ⟨r, ⟨hr, rfl⟩, rfl⟩
  exact hr

theorem mem_lineOrder : s ∈ g.lineOrder ↔ ∃ r, r ∈ g.rules ∧ r.left = s := by
  have hleft : s ∈ g.leftSides ↔ ∃ r, r ∈ g.rules ∧ r.left = s := FinSet.mem_map
  rw [lineOrder, List.mem_append, List.mem_filter, List.mem_filter, FinSet.mem_toList, hleft,
    ← and_or_left, and_iff_left]
  by_cases hs : s = g.root <;> simp [hs]

/-- The root comes first. -/
theorem lineOrder_eq_cons (h : ∃ r, r ∈ g.rules ∧ r.left = g.root) :
    ∃ rest, g.lineOrder = g.root :: rest := by
  have hmem : g.root ∈ g.leftSides.toList.filter (· = g.root) :=
    List.mem_filter.2 ⟨FinSet.mem_map.2 h, decide_eq_true rfl⟩
  obtain ⟨s, ss, hss⟩ := List.exists_cons_of_ne_nil (List.ne_nil_of_mem hmem)
  have hs : s ∈ g.leftSides.toList.filter (· = g.root) := hss ▸ List.mem_cons_self
  obtain rfl : s = g.root := of_decide_eq_true (List.mem_filter.1 hs).2
  exact ⟨_, by rw [lineOrder, hss, List.cons_append]⟩

/-- **What is printed is the text of the grammar**, also when the table has grown. -/
theorem render_eq_shown (h : g.StandsFor table w) (hgrows : table.Grows later) :
    g.render later = .ok (g.shown table) := by
  have hname : ∀ {s l}, table.StandsFor s l → later.nameOf s = .ok (table.nameIn s) := by
    intro s l hs
    rw [hs.nameIn_eq]
    exact (hs.grows hgrows).nameOf
  have hright : ∀ r, r ∈ g.rules →
      rightSideText later r.right = .ok (shownRight (r.right.map table.nameIn)) := by
    intro r hr
    obtain ⟨n, _, hrn⟩ := h.rule r hr
    have hnames : ∀ s ∈ r.right, later.nameOf s = .ok (table.nameIn s) := by
      intro s hs
      obtain ⟨l, _, hsl⟩ := exists_right_of_forall₂ hrn.right hs
      exact hname hsl
    by_cases hnil : r.right = []
    · rw [hnil]
      rfl
    · rw [rightSideText, shownRight, if_neg (by simpa using hnil), if_neg (by simpa using hnil)]
      exact bind_eq_ok_iff.2 ⟨_, mapM_eq_ok_map hnames, rfl⟩
  have hline : ∀ s ∈ g.lineOrder,
      g.lineText later s = .ok (shownLine (table.nameIn s) (g.rightNames table s)) := by
    intro s hs
    obtain ⟨r, hr, rfl⟩ := mem_lineOrder.1 hs
    obtain ⟨n, _, hrn⟩ := h.rule r hr
    have hrights := mapM_eq_ok_map fun right hmem =>
      hright ⟨r.left, right⟩ (mem_alternatives.1 hmem)
    refine bind_eq_ok_iff.2 ⟨_, hname hrn.left, bind_eq_ok_iff.2 ⟨_, hrights, ?_⟩⟩
    rw [shownLine, rightNames, List.map_map]
    rfl
  exact bind_eq_ok_iff.2 ⟨_, mapM_eq_ok_map hline, rfl⟩

end Printing

/-! ## Reading what was printed -/

section Reading

variable {g : Grammar} {table : SymbolTable} {w : WrittenGrammar} {s : Symbol} {r : Rule}
  {n : WrittenRule} {names : List String} {name : String} {rest : List Symbol}

theorem isWord_of_mem_lineOrder (h : g.StandsFor table w) (hw : w.Spelled) (hs : s ∈ g.lineOrder) :
    IsWord (table.nameIn s) ∧ ¬HasArrow (table.nameIn s).toList := by
  obtain ⟨r, hr, rfl⟩ := mem_lineOrder.1 hs
  obtain ⟨n, hn, hrn⟩ := h.rule r hr
  rw [hrn.left.nameIn_eq]
  exact hw.left_name n hn

theorem isWord_of_mem_rightNames (h : g.StandsFor table w) (hw : w.Spelled)
    (hnames : names ∈ g.rightNames table s) (hname : name ∈ names) :
    IsWord name ∧ '|' ∉ name.toList := by
  obtain ⟨right, hright, rfl⟩ := List.mem_map.1 hnames
  obtain ⟨t, ht, rfl⟩ := List.mem_map.1 hname
  obtain ⟨n, hn, hrn⟩ := h.rule _ (mem_alternatives.1 hright)
  obtain ⟨l, hl, htl⟩ := exists_right_of_forall₂ hrn.right ht
  rw [htl.nameIn_eq]
  exact hw.right_name n hn l hl

/-- The line of a symbol as it is cut at its arrow. -/
def headOf (table : SymbolTable) (g : Grammar) (s : Symbol) : RuleLine :=
  shownHead (table.nameIn s) (g.rightNames table s)

/-- The lines of the text are those of the left sides. -/
theorem heads_shown_of_spelled (h : g.StandsFor table w) (hw : w.Spelled) (hne : g.lineOrder ≠ []) :
    Heads (g.lineOrder.map (g.headOf table)) (lines (g.shown table).toList) := by
  have hwritten : ∀ s ∈ g.lineOrder, (g.headOf table s).WrittenAs
      (shownLine (table.nameIn s) (g.rightNames table s)).toList := by
    intro s hs
    obtain ⟨hword, harrow⟩ := isWord_of_mem_lineOrder h hw hs
    exact writtenAs_shownLine hword harrow
  have hspace : ∀ s ∈ g.lineOrder, ∀ c, isBlank c = true → c ≠ ' ' →
      c ∉ (shownLine (table.nameIn s) (g.rightNames table s)).toList := by
    intro s hs c hblank hne hc
    refine hne (eq_space_of_mem_shownLine (isWord_of_mem_lineOrder h hw hs).1.2 ?_ hc hblank)
    intro names hnames name hname
    exact (isWord_of_mem_rightNames h hw hnames hname).1.2
  have hlines : lines (g.shown table).toList = g.lineOrder.map fun s =>
      (shownLine (table.nameIn s) (g.rightNames table s)).toList := by
    rw [shown, String.toList_intercalate, List.map_map]
    refine lines_intercalate (mt List.map_eq_nil_iff.1 hne) ?_ ?_ ?_
    · intro row hrow hnil
      obtain ⟨s, hs, hrow⟩ := List.mem_map.1 hrow
      have hempty : (shownLine (table.nameIn s) (g.rightNames table s)).toList = [] :=
        hrow.trans hnil
      exact (hwritten s hs).not_blank (hempty ▸ blank_nil)
    · intro row hrow
      obtain ⟨s, hs, rfl⟩ := List.mem_map.1 hrow
      exact hspace s hs '\n' (by decide) (by decide)
    · intro row hrow
      obtain ⟨s, hs, rfl⟩ := List.mem_map.1 hrow
      exact hspace s hs '\r' (by decide) (by decide)
  rw [hlines]
  exact .map hwritten

theorem heads_shown (h : g.StandsFor table w) (hw : w.Legible) (hne : g.lineOrder ≠ []) :
    Heads (g.lineOrder.map (g.headOf table)) (lines (g.shown table).toList) :=
  heads_shown_of_spelled h hw.spelled hne

/-- The line of a symbol is read as its alternatives. -/
theorem mem_writtenRules_headOf {lefts : List (List Char)} (h : g.StandsFor table w)
    (hw : w.Legible) (hs : s ∈ g.lineOrder) : n ∈ writtenRules lefts (g.headOf table s) ↔
      ∃ right, ⟨s, right⟩ ∈ g.rules ∧ n = ⟨(.nonterminal, table.nameIn s),
        labelsOf lefts (words (shownRight (right.map table.nameIn)).toList)⟩ := by
  obtain ⟨r, hr, rfl⟩ := mem_lineOrder.1 hs
  have hne : g.rightNames table r.left ≠ [] :=
    List.ne_nil_of_mem (List.mem_map_of_mem (mem_alternatives.2 hr))
  rw [headOf, writtenRules_shownHead hne fun names hnames name hname =>
    (isWord_of_mem_rightNames h hw.spelled hnames hname).2, rightNames, List.map_map, List.mem_map]
  simp only [mem_alternatives, Function.comp_apply, eq_comm (a := n)]

/-- Every rule is read as what it stands for. -/
theorem eq_of_standsFor (h : g.StandsFor table w) (hw : w.Legible) (hn : n ∈ w.rules)
    (hrn : r.StandsFor table n) : n = ⟨(.nonterminal, table.nameIn r.left),
      labelsOf (g.lineOrder.map fun s => (table.nameIn s).toList)
        (words (shownRight (r.right.map table.nameIn)).toList)⟩ := by
  have hleft : n.left = (.nonterminal, table.nameIn r.left) :=
    Prod.ext (hw.left_kind n hn) hrn.left.nameIn_eq.symm
  have hnames : r.right.map table.nameIn = n.right.map Prod.snd := by
    rw [← List.forall₂_eq_eq_eq, List.forall₂_map_left_iff, List.forall₂_map_right_iff]
    exact hrn.right.imp fun s l hs => hs.nameIn_eq
  have hlefts : ∀ l ∈ n.right, l.1 = .nonterminal ↔
      l.2.toList ∈ g.lineOrder.map fun s => (table.nameIn s).toList := by
    intro l hl
    rw [hw.right_kind n hn l hl, List.mem_map]
    refine ⟨?_, ?_⟩
    · rintro ⟨n', hn', hname⟩
      obtain ⟨r', hr', hrn'⟩ := h.written n' hn'
      exact ⟨r'.left, mem_lineOrder.2 ⟨r', hr', rfl⟩, by rw [hrn'.left.nameIn_eq, hname]⟩
    · rintro ⟨s, hs, hname⟩
      obtain ⟨r', hr', rfl⟩ := mem_lineOrder.1 hs
      obtain ⟨n', hn', hrn'⟩ := h.rule r' hr'
      exact ⟨n', hn', hrn'.left.nameIn_eq.symm.trans (String.toList_injective hname)⟩
  obtain ⟨left, right⟩ := n
  rw [WrittenRule.mk.injEq, hnames]
  refine ⟨hleft, (labelsOf_shownRight ?_ hlefts (hw.not_alone _ hn)).symm⟩
  exact fun l hl => (hw.right_name _ hn l hl).1

/-- **The text of a grammar says what the grammar stands for.** -/
theorem writtenGrammar_shown (h : g.StandsFor table w) (hw : w.Legible)
    (hrest : g.lineOrder = g.root :: rest) :
    writtenGrammar (g.headOf table g.root) (rest.map (g.headOf table)) = w := by
  have hroot : (SymbolKind.nonterminal, table.nameIn g.root) = w.root := by
    obtain ⟨n, hn, hleft⟩ := hw.root_left
    exact Prod.ext (hleft ▸ (hw.left_kind n hn).symm) h.root.nameIn_eq
  have hheads : g.headOf table g.root :: rest.map (g.headOf table) =
      g.lineOrder.map (g.headOf table) := by
    rw [hrest, List.map_cons]
  have hlefts : (g.lineOrder.map (g.headOf table)).map RuleLine.left =
      g.lineOrder.map fun s => (table.nameIn s).toList := by
    rw [List.map_map]
    rfl
  have hrules : (writtenGrammar (g.headOf table g.root) (rest.map (g.headOf table))).rules =
      w.rules := by
    refine Set.ext fun n => ?_
    rw [writtenGrammar, Set.mem_ofPred_eq, hheads, hlefts, List.mem_flatMap]
    refine ⟨?_, fun hn => ?_⟩
    · rintro ⟨head, hhead, hn⟩
      obtain ⟨s, hs, rfl⟩ := List.mem_map.1 hhead
      obtain ⟨right, hr, rfl⟩ := (mem_writtenRules_headOf h hw hs).1 hn
      obtain ⟨n', hn', hrn⟩ := h.rule _ hr
      exact eq_of_standsFor h hw hn' hrn ▸ hn'
    · obtain ⟨r, hr, hrn⟩ := h.written n hn
      have hs := mem_lineOrder.2 ⟨r, hr, rfl⟩
      exact ⟨_, List.mem_map_of_mem hs, (mem_writtenRules_headOf h hw hs).2
        ⟨r.right, hr, eq_of_standsFor h hw hn hrn⟩⟩
  have hroot' : (writtenGrammar (g.headOf table g.root) (rest.map (g.headOf table))).root =
      w.root := by
    rw [← hroot, writtenGrammar, headOf, shownHead, String.ofList_toList]
  exact WrittenGrammar.ext hroot' hrules

/-- **Printed grammars are read as what they were.**  A grammar that was read from a text can be
printed from then on, always in the same way.  Where it is printed and read again it is the same
grammar, without any new symbols, and read on any other table it is a grammar that stands for the
same kinds and names. -/
theorem printed_reads_back {text : String} {table' : SymbolTable} (ht : table.Obtainable)
    (hrun : (ofText text).run table = .ok g table') :
    ∃ printed, (∀ later, table'.Grows later →
      g.render later = .ok printed ∧ (ofText printed).run later = .ok g later) ∧
    ∀ other, ∃ g' other', (ofText printed).run other = .ok g' other' ∧
      ∃ w, g.StandsFor table' w ∧ g'.StandsFor other' w := by
  obtain ⟨first, heads, hheads⟩ := exists_heads_of_run hrun
  obtain ⟨g₀, table₀, hrun₀, hgrows, _, hg⟩ := obtains_ofText hheads table
  obtain ⟨rfl, rfl⟩ := EStateM.Result.ok.inj (hrun.symm.trans hrun₀)
  have hw := legible_writtenGrammar hheads
  generalize writtenGrammar first heads = w at hg hw
  have hnodup := (ht.grows hgrows).nodup
  have hroot : ∃ r, r ∈ g.rules ∧ r.left = g.root := by
    obtain ⟨n, hn, hleft⟩ := hw.root_left
    obtain ⟨r, hr, hrn⟩ := (hg table' .refl).written n hn
    exact ⟨r, hr, (hleft ▸ hrn.left).eq hnodup (hg table' .refl).root⟩
  obtain ⟨rest, hrest⟩ := lineOrder_eq_cons hroot
  have hreads : ∀ t, Obtains w.labels (ofText (g.shown table')) (fun t g => g.StandsFor t w) t := by
    intro t
    have hshown := heads_shown (hg table' .refl) hw (hrest ▸ List.cons_ne_nil _ _)
    rw [hrest] at hshown
    have hsays := writtenGrammar_shown (hg table' .refl) hw hrest
    rw [← hsays]
    exact obtains_ofText hshown t
  refine ⟨g.shown table', fun later hlater => ⟨render_eq_shown (hg table' .refl) hlater, ?_⟩,
    fun other => ?_⟩
  · obtain ⟨g₁, later₁, hrun₁, _, hsame, hg₁⟩ := hreads later
    obtain rfl : later₁ = later := hsame fun l hl => (hg later hlater).mem_entries hl
    have hnodup' := (ht.grows (hgrows.trans hlater)).nodup
    rw [hrun₁, (hg₁ later₁ .refl).eq hnodup' (hg later₁ hlater)]
  · obtain ⟨g₁, other₁, hrun₁, _, _, hg₁⟩ := hreads other
    exact ⟨g₁, other₁, hrun₁, w, hg table' .refl, hg₁ other₁ .refl⟩

/-- A bar on the left, an arrow on the right, and alternatives that are given twice. -/
def barOnTheLeft : String := "a|b -> S->S S | eps\n\nS -> eps eps|a\na|b ->|S->S  S"

/-- A table with the symbol of the last line in front. -/
def barOnTheLeftTable : SymbolTable := ⟨[(.nonterminal, "S")]⟩

theorem barOnTheLeft_reads_back : barOnTheLeftTable.Obtainable ∧
    ∃ g table', (ofText barOnTheLeft).run barOnTheLeftTable = .ok g table' ∧
    ∃ printed, (table'.Grows table' ∧
      g.render table' = .ok printed ∧ (ofText printed).run table' = .ok g table') ∧
    ∀ other, ∃ g' other', (ofText printed).run other = .ok g' other' ∧
      ∃ w, g.StandsFor table' w ∧ g'.StandsFor other' w := by
  have ht : barOnTheLeftTable.Obtainable :=
    .single ⟨.nonterminal, "S", ⟨0, .nonterminal⟩, by cbv⟩
  have hrun : (ofText barOnTheLeft).run barOnTheLeftTable = .ok
      ⟨⟨1, .nonterminal⟩, FinSet.ofList [⟨⟨0, .nonterminal⟩, [⟨3, .terminal⟩, ⟨3, .terminal⟩]⟩,
        ⟨⟨0, .nonterminal⟩, [⟨4, .terminal⟩]⟩, ⟨⟨1, .nonterminal⟩, []⟩,
        ⟨⟨1, .nonterminal⟩, [⟨2, .terminal⟩, ⟨0, .nonterminal⟩]⟩]⟩
      ⟨[(.nonterminal, "S"), (.nonterminal, "a|b"), (.terminal, "S->S"), (.terminal, "eps"),
        (.terminal, "a")]⟩ := by cbv
  obtain ⟨printed, hsame, hother⟩ := printed_reads_back ht hrun
  exact ⟨ht, _, _, hrun, printed, ⟨.refl, hsame _ .refl⟩, hother⟩

end Reading

end Grammar

end Automata
