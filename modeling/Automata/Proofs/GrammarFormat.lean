import Automata.Proofs.Labels
import Automata.Proofs.Pieces
import Mathlib

/-!
# The format of grammars

Every line that is not blank has a name before its first arrow and alternatives with bars between
them behind it.  Whether a name is a nonterminal depends on all lines together, those that come
later as much as those before, and what a text says is a grammar of kinds and names: it does not
depend on the table that the symbols come from.

## What is here

* `RuleLine.WrittenAs`, `LineFault` — the lines that can be cut at their arrow, and those that
  cannot, with what is wrong about them.
* `RightSide`, `Grammar.Says` — what an alternative and what all lines together say.
* `line_cases`, `RuleLine.ofText_eq_ok_iff` — every line is blank, cut or wrong, and lines are cut
  by the format.
* `Heads`, `Heads.ruleLinesOfText_eq_ok`, `ruleLinesOfText_eq_error` — so are the lines of a text,
  up to the first that is wrong.
* `writtenGrammar`, `Grammar.obtains_ofText` — the grammar of the lines with labels in place of
  symbols, which is what reading them yields; `says_writtenGrammar`, `Grammar.Says.unique` — it is
  what the lines say, and they say nothing else.
* `Grammar.ofText_reads_format` — **a text is read as what it says, or its first line that does not
  have the format is reported.**
-/

set_option autoImplicit false

namespace Automata

open Text

/-! ## The format -/

/-- The line has the name of `head` before its first arrow, and behind it what else `head` has. -/
def RuleLine.WrittenAs (head : RuleLine) (line : List Char) : Prop :=
  ∃ before, ¬HasArrow before ∧ line = before ++ '-' :: '>' :: head.rest ∧
    trimmed before = head.left ∧ head.left ≠ [] ∧ Solid head.left

/-- What is wrong about a line that is neither blank nor has the format. -/
inductive LineFault : String → List Char → Prop where
  /-- There is no arrow. -/
  | noArrow {line : List Char} : ¬Blank line → ¬HasArrow line →
      LineFault "expected a rule of the form LHS -> RHS" line
  /-- There is nothing but blanks before the first arrow. -/
  | noName {before rest : List Char} : ¬HasArrow before → trimmed before = [] →
      LineFault "the left-hand side must be a single name" (before ++ '-' :: '>' :: rest)
  /-- What is before the first arrow has a blank inside. -/
  | manyNames {before rest : List Char} {c : Char} : ¬HasArrow before → c ∈ trimmed before →
      isBlank c = true →
      LineFault "the left-hand side must be a single name" (before ++ '-' :: '>' :: rest)

/-- The label has the name, and is a nonterminal exactly if the name is a left side. -/
def LabelFor (isLeft : List Char → Prop) (l : Label) (name : List Char) : Prop :=
  l.2 = String.ofList name ∧ (l.1 = .nonterminal ↔ isLeft name)

/-- An alternative, and what it says where these names are left sides. -/
inductive RightSide (isLeft : List Char → Prop) : List Label → List Char → Prop where
  /-- There are blanks only. -/
  | blank {text : List Char} : Blank text → RightSide isLeft [] text
  /-- A name for the empty alternative stands alone. -/
  | epsilon {name text : List Char} : name = "eps".toList ∨ name = "ε".toList →
      Spaced [name] text → RightSide isLeft [] text
  /-- There are any other names. -/
  | names {names : List (List Char)} {labels : List Label} {text : List Char} : names ≠ [] →
      names ≠ ["eps".toList] → names ≠ ["ε".toList] → Spaced names text →
      List.Forall₂ (LabelFor isLeft) labels names → RightSide isLeft labels text

namespace Grammar

/-- The name is before the first arrow of some line. -/
def IsLeft (rows : List (List Char)) (name : List Char) : Prop :=
  ∃ row ∈ rows, ∃ head : RuleLine, head.WrittenAs row ∧ head.left = name

/-- The lines say that these are the root and the rules. -/
structure Says (rows : List (List Char)) (w : WrittenGrammar) : Prop where
  /-- The root is the left side of the first line that is not blank. -/
  root : ∃ blanks row rest, rows = blanks ++ row :: rest ∧ (∀ b ∈ blanks, Blank b) ∧
    ∃ head : RuleLine, head.WrittenAs row ∧ w.root = (.nonterminal, String.ofList head.left)
  /-- The alternatives of a nonterminal are those of all its lines. -/
  mem_rules : ∀ n, n ∈ w.rules ↔ ∃ row ∈ rows, ∃ head : RuleLine, head.WrittenAs row ∧
    n.left = (.nonterminal, String.ofList head.left) ∧
    ∃ ps, Joined '|' ps head.rest ∧ ∃ p ∈ ps, RightSide (IsLeft rows) n.right p

end Grammar

/-! ## Lines -/

section Lines

variable {line row : List Char} {rows : List (List Char)} {head : RuleLine}
  {heads : List RuleLine} {reason : String} {number : Nat}

/-- A line is blank, or it has the format, or something is wrong about it. -/
theorem line_cases (line : List Char) :
    Blank line ∨ (∃ head : RuleLine, head.WrittenAs line) ∨ ∃ reason, LineFault reason line := by
  by_cases hblank : Blank line
  · exact .inl hblank
  refine .inr ?_
  cases hcut : cutAtArrow line with
  | none => exact .inr ⟨_, .noArrow hblank (cutAtArrow_eq_none_iff.1 hcut)⟩
  | some parts =>
    obtain ⟨before, rest⟩ := parts
    obtain ⟨rfl, hbefore⟩ := cutAtArrow_eq_some_iff.1 hcut
    by_cases hnil : trimmed before = []
    · exact .inr ⟨_, .noName hbefore hnil⟩
    · by_cases hsolid : Solid (trimmed before)
      · exact .inl ⟨⟨trimmed before, rest⟩, before, hbefore, rfl, rfl, hnil, hsolid⟩
      · simp only [Solid, not_forall, Bool.not_eq_false] at hsolid
        obtain ⟨c, hc, hblank⟩ := hsolid
        exact .inr ⟨_, .manyNames hbefore hc hblank⟩

namespace RuleLine

theorem ofText_of_noArrow (h : ¬HasArrow line) :
    ofText line = .error "expected a rule of the form LHS -> RHS" := by
  rw [ofText, cutAtArrow_eq_none_iff.2 h]

theorem ofText_of_writtenAs (h : head.WrittenAs line) : ofText line = .ok head := by
  obtain ⟨before, hbefore, rfl, hleft, hne, hsolid⟩ := h
  have hany : head.left.any isBlank = false := List.any_eq_false.2 fun c hc => by simp [hsolid c hc]
  simp [ofText, cutAtArrow_append hbefore, hleft, hne, hany]

theorem ofText_of_fault (h : LineFault reason line) : ofText line = .error reason := by
  cases h with
  | noArrow _ harrow => exact ofText_of_noArrow harrow
  | noName hbefore hnil => simp [ofText, cutAtArrow_append hbefore, hnil]
  | manyNames hbefore hc hblank =>
    have hany := List.any_eq_true.2 ⟨_, hc, hblank⟩
    simp [ofText, cutAtArrow_append hbefore, hany]

/-- There is nothing wrong about a line that is cut. -/
theorem not_fault_of_isOk (h : (ofText line).isOk = true) : ¬LineFault reason line := by
  intro hfault
  rw [ofText_of_fault hfault] at h
  cases h

/-- Lines are cut if they have the format. -/
theorem ofText_eq_ok_iff : ofText line = .ok head ↔ head.WrittenAs line := by
  refine ⟨fun h => ?_, ofText_of_writtenAs⟩
  rcases line_cases line with hblank | ⟨head', hhead⟩ | ⟨reason, hfault⟩
  · rw [ofText_of_noArrow hblank.not_hasArrow] at h
    cases h
  · rw [ofText_of_writtenAs hhead, Except.ok.injEq] at h
    exact h ▸ hhead
  · exact absurd hfault (not_fault_of_isOk (h ▸ rfl))

theorem WrittenAs.not_blank (h : head.WrittenAs line) : ¬Blank line := by
  intro hblank
  have hok := ofText_of_writtenAs h
  rw [ofText_of_noArrow hblank.not_hasArrow] at hok
  cases hok

end RuleLine

theorem LineFault.not_blank (h : LineFault reason line) : ¬Blank line := by
  have harrow : ∀ {before rest : List Char}, ¬Blank (before ++ '-' :: '>' :: rest) := by
    intro before rest hblank
    exact absurd (hblank '-' (by simp)) (by decide)
  cases h with
  | noArrow hblank _ => exact hblank
  | noName _ _ => exact harrow
  | manyNames _ _ _ => exact harrow

/-! ## Texts line by line -/

theorem ruleLinesOfText_blank (h : Blank row) :
    ruleLinesOfText number (row :: rows) = ruleLinesOfText (number + 1) rows := by
  rw [ruleLinesOfText, trimmed_eq_nil_iff.2 h]
  rfl

theorem ruleLinesOfText_writtenAs (h : head.WrittenAs row) :
    ruleLinesOfText number (row :: rows) =
      (ruleLinesOfText (number + 1) rows).map (head :: ·) := by
  have hne := mt trimmed_eq_nil_iff.1 h.not_blank
  rw [ruleLinesOfText, if_neg (by simpa using hne), RuleLine.ofText_of_writtenAs h]
  cases ruleLinesOfText (number + 1) rows <;> rfl

theorem ruleLinesOfText_fault (h : LineFault reason row) :
    ruleLinesOfText number (row :: rows) =
      .error (.malformed number (String.ofList (trimmed row)) reason) := by
  have hne := mt trimmed_eq_nil_iff.1 h.not_blank
  rw [ruleLinesOfText, if_neg (by simpa using hne), RuleLine.ofText_of_fault h]
  rfl

/-- The first line that is wrong is reported. -/
theorem ruleLinesOfText_eq_error {i : Nat} (hrow : rows[i]? = some row)
    (hfault : LineFault reason row)
    (hbefore : ∀ j < i, ∀ row' reason', rows[j]? = some row' → ¬LineFault reason' row') :
    ruleLinesOfText number rows =
      .error (.malformed (number + i) (String.ofList (trimmed row)) reason) := by
  induction rows generalizing i number with
  | nil => cases hrow
  | cons row' rows ih =>
    cases i with
    | zero =>
      obtain rfl : row' = row := Option.some_inj.1 hrow
      exact ruleLinesOfText_fault hfault
    | succ i =>
      have hrest : ruleLinesOfText (number + 1) rows = _ :=
        ih hrow fun j hj => hbefore (j + 1) (by omega)
      rw [show number + 1 + i = number + (i + 1) by omega] at hrest
      rcases line_cases row' with hblank | ⟨head, hhead⟩ | ⟨reason', hfault'⟩
      · rw [ruleLinesOfText_blank hblank, hrest]
      · rw [ruleLinesOfText_writtenAs hhead, hrest]
        rfl
      · exact absurd hfault' (hbefore 0 (by omega) row' reason' rfl)

/-- The lines that are not blank are cut like this, one after the other. -/
inductive Heads : List RuleLine → List (List Char) → Prop where
  /-- There are no lines. -/
  | nil : Heads [] []
  /-- A blank line has nothing to cut. -/
  | blank {row : List Char} {rows : List (List Char)} {heads : List RuleLine} :
      Blank row → Heads heads rows → Heads heads (row :: rows)
  /-- A line is cut. -/
  | head {row : List Char} {rows : List (List Char)} {head : RuleLine} {heads : List RuleLine} :
      head.WrittenAs row → Heads heads rows → Heads (head :: heads) (row :: rows)

/-- Lines can be cut if nothing is wrong about them. -/
theorem exists_heads (h : ∀ row ∈ rows, ∀ reason, ¬LineFault reason row) :
    ∃ heads, Heads heads rows := by
  induction rows with
  | nil => exact ⟨[], .nil⟩
  | cons row rows ih =>
    obtain ⟨hrow, hrows⟩ := List.forall_mem_cons.1 h
    obtain ⟨heads, hheads⟩ := ih hrows
    rcases line_cases row with hblank | ⟨head, hhead⟩ | ⟨reason, hfault⟩
    · exact ⟨heads, .blank hblank hheads⟩
    · exact ⟨head :: heads, .head hhead hheads⟩
    · exact absurd hfault (hrow reason)

/-- Lines that are read can be cut. -/
theorem heads_of_ruleLinesOfText (h : ruleLinesOfText number rows = .ok heads) :
    Heads heads rows := by
  induction rows generalizing heads number with
  | nil =>
    cases h
    exact .nil
  | cons row rows ih =>
    rcases line_cases row with hblank | ⟨head, hhead⟩ | ⟨reason, hfault⟩
    · rw [ruleLinesOfText_blank hblank] at h
      exact .blank hblank (ih h)
    · rw [ruleLinesOfText_writtenAs hhead] at h
      cases hrest : ruleLinesOfText (number + 1) rows with
      | error e =>
        rw [hrest] at h
        cases h
      | ok heads' =>
        rw [hrest] at h
        cases h
        exact .head hhead (ih hrest)
    · rw [ruleLinesOfText_fault hfault] at h
      cases h

namespace Heads

theorem ruleLinesOfText_eq_ok (h : Heads heads rows) : ruleLinesOfText number rows = .ok heads := by
  induction h generalizing number with
  | nil => rfl
  | blank hblank _ ih => rw [ruleLinesOfText_blank hblank, ih]
  | head hhead _ ih =>
    rw [ruleLinesOfText_writtenAs hhead, ih]
    rfl

/-- Lines that are not blank are cut one by one. -/
theorem map {α : Type} {f : α → RuleLine} {line : α → List Char} {l : List α}
    (h : ∀ a ∈ l, (f a).WrittenAs (line a)) : Heads (l.map f) (l.map line) := by
  induction l with
  | nil => exact .nil
  | cons a l ih =>
    obtain ⟨ha, hl⟩ := List.forall_mem_cons.1 h
    exact .head ha (ih hl)

theorem mem_iff (h : Heads heads rows) : head ∈ heads ↔ ∃ row ∈ rows, head.WrittenAs row := by
  induction h with
  | nil => simp
  | blank hblank _ ih =>
    rw [ih, List.exists_mem_cons_iff, or_iff_right fun hhead => hhead.not_blank hblank]
  | @head row rows head' heads hhead _ ih =>
    have hsame : head.WrittenAs row ↔ head = head' := by
      rw [← RuleLine.ofText_eq_ok_iff, RuleLine.ofText_of_writtenAs hhead, Except.ok.injEq, eq_comm]
    rw [List.mem_cons, ih, List.exists_mem_cons_iff, hsame]

/-- Nothing is cut where everything is blank. -/
theorem eq_nil_iff (h : Heads heads rows) : heads = [] ↔ ∀ row ∈ rows, Blank row := by
  induction h with
  | nil => simp
  | blank hblank _ ih => simp [ih, hblank]
  | head hhead _ _ => simp [hhead.not_blank]

/-- What is cut first is the first line that is not blank. -/
theorem exists_first (h : Heads (head :: heads) rows) : ∃ blanks row rest,
    rows = blanks ++ row :: rest ∧ (∀ b ∈ blanks, Blank b) ∧ head.WrittenAs row := by
  generalize hall : head :: heads = all at h
  induction h with
  | nil => cases hall
  | @blank row rows _ hblank _ ih =>
    obtain ⟨blanks, row', rest, rfl, hblanks, hhead⟩ := ih hall
    exact ⟨row :: blanks, row', rest, rfl, List.forall_mem_cons.2 ⟨hblank, hblanks⟩, hhead⟩
  | @head row rows _ _ hhead _ _ =>
    cases hall
    exact ⟨[], row, rows, rfl, fun b hb => absurd hb List.not_mem_nil, hhead⟩

end Heads

end Lines

/-! ## Alternatives -/

section Alternatives

variable {lefts names : List (List Char)} {name p : List Char} {labels : List Label} {l : Label}
  {isLeft : List Char → Prop}

/-- The label of a name where `lefts` are the left sides. -/
def labelOf (lefts : List (List Char)) (name : List Char) : Label :=
  (if lefts.contains name then .nonterminal else .terminal, String.ofList name)

/-- The labels of the names of an alternative. -/
def labelsOf (lefts names : List (List Char)) : List Label :=
  if names = ["eps".toList] ∨ names = ["ε".toList] then [] else names.map (labelOf lefts)

theorem labelOf_eq (lefts : List (List Char)) (name : List Char) : labelOf lefts name =
    (if name ∈ lefts then .nonterminal else .terminal, String.ofList name) := by
  by_cases h : name ∈ lefts <;> simp [labelOf, h]

theorem standsAlone_iff {names : List (List Char)} :
    (names.length = 1 && names.any (· ∈ emptyNames)) = true ↔
      names = ["eps".toList] ∨ names = ["ε".toList] := by
  cases names with
  | nil => simp
  | cons name names => cases names <;> simp [emptyNames]

theorem labelFor_iff (h : ∀ name, isLeft name ↔ name ∈ lefts) :
    LabelFor isLeft l name ↔ l = labelOf lefts name := by
  obtain ⟨kind, s⟩ := l
  rw [LabelFor, labelOf_eq, h, Prod.mk.injEq, and_comm]
  refine and_congr_left fun _ => ?_
  by_cases hname : name ∈ lefts
  · rw [if_pos hname, iff_true_right hname]
  · rw [if_neg hname, iff_false_right hname]
    cases kind <;> simp

theorem forall₂_labelFor_iff (h : ∀ name, isLeft name ↔ name ∈ lefts) :
    List.Forall₂ (LabelFor isLeft) labels names ↔ labels = names.map (labelOf lefts) := by
  rw [← List.forall₂_eq_eq_eq, List.forall₂_map_right_iff]
  refine ⟨List.Forall₂.imp fun l name => ?_, List.Forall₂.imp fun l name => ?_⟩
  · exact (labelFor_iff h).1
  · exact (labelFor_iff h).2

/-- **An alternative says one thing only.** -/
theorem rightSide_iff (h : ∀ name, isLeft name ↔ name ∈ lefts) :
    RightSide isLeft labels p ↔ labels = labelsOf lefts (words p) := by
  refine ⟨fun hright => ?_, ?_⟩
  · cases hright with
    | blank hblank =>
      rw [words_eq_nil_iff.2 hblank]
      rfl
    | epsilon hname hspaced =>
      rw [words_eq_iff.2 hspaced, labelsOf, if_pos]
      exact hname.imp (congrArg ([·])) (congrArg ([·]))
    | names _ heps heps' hspaced hlabels =>
      rw [words_eq_iff.2 hspaced, labelsOf, if_neg (not_or.2 ⟨heps, heps'⟩)]
      exact (forall₂_labelFor_iff h).1 hlabels
  · rintro rfl
    have hspaced : Spaced (words p) p := words_eq_iff.1 rfl
    generalize words p = names at hspaced
    rw [labelsOf]
    split
    · rename_i heps
      rcases heps with rfl | rfl
      · exact .epsilon (.inl rfl) hspaced
      · exact .epsilon (.inr rfl) hspaced
    · rename_i heps
      rw [not_or] at heps
      by_cases hnil : names = []
      · subst hnil
        exact .blank (words_eq_nil_iff.1 (words_eq_iff.2 hspaced))
      · exact .names hnil heps.1 heps.2 hspaced ((forall₂_labelFor_iff h).2 rfl)

end Alternatives

/-! ## What lines say -/

namespace Grammar

section Says

variable {rows : List (List Char)} {first : RuleLine} {heads : List RuleLine}
  {w w' : WrittenGrammar}

/-- The rules of a line, with labels in place of symbols. -/
def writtenRules (lefts : List (List Char)) (head : RuleLine) : List WrittenRule :=
  (pieces (· == '|') head.rest).map fun p =>
    ⟨(.nonterminal, String.ofList head.left), labelsOf lefts (words p)⟩

/-- The grammar of lines, with labels in place of symbols. -/
def writtenGrammar (first : RuleLine) (heads : List RuleLine) : WrittenGrammar where
  root := (.nonterminal, String.ofList first.left)
  rules := { n | n ∈ (first :: heads).flatMap
    (writtenRules ((first :: heads).map RuleLine.left)) }

/-- A line has at least one rule. -/
theorem exists_writtenRules_eq_cons (lefts : List (List Char)) (head : RuleLine) :
    ∃ n ns, writtenRules lefts head = n :: ns ∧
      n.left = (.nonterminal, String.ofList head.left) := by
  obtain ⟨p, ps, hps⟩ := List.exists_cons_of_ne_nil (pieces_ne_nil (· == '|') head.rest)
  exact ⟨_, _, by rw [writtenRules, hps, List.map_cons], rfl⟩

/-- The rules come from the alternatives of the lines. -/
theorem mem_rules_writtenGrammar {n : WrittenRule} : n ∈ (writtenGrammar first heads).rules ↔
    ∃ head ∈ first :: heads, ∃ p ∈ pieces (· == '|') head.rest,
      ⟨(.nonterminal, String.ofList head.left),
        labelsOf ((first :: heads).map RuleLine.left) (words p)⟩ = n := by
  rw [writtenGrammar, Set.mem_ofPred_eq, List.mem_flatMap]
  simp only [writtenRules, List.mem_map]

/-- Every line has its rules. -/
theorem exists_rule_of_mem {head : RuleLine} (h : head ∈ first :: heads) :
    ∃ n ∈ (writtenGrammar first heads).rules,
      n.left = (.nonterminal, String.ofList head.left) := by
  obtain ⟨n, ns, hns, hn⟩ :=
    exists_writtenRules_eq_cons ((first :: heads).map RuleLine.left) head
  exact ⟨n, List.mem_flatMap.2 ⟨head, h, hns ▸ List.mem_cons_self⟩, hn⟩

theorem isLeft_iff (h : Heads heads rows) (name : List Char) :
    IsLeft rows name ↔ name ∈ heads.map RuleLine.left := by
  rw [IsLeft, List.mem_map]
  simp only [h.mem_iff]
  refine ⟨?_, ?_⟩
  · rintro ⟨row, hrow, head, hhead, rfl⟩
    exact ⟨head, ⟨row, hrow, hhead⟩, rfl⟩
  · rintro ⟨head, ⟨row, hrow, hhead⟩, rfl⟩
    exact ⟨row, hrow, head, hhead, rfl⟩

/-- **The grammar of lines is what they say.** -/
theorem says_writtenGrammar (h : Heads (first :: heads) rows) :
    Says rows (writtenGrammar first heads) where
  root := by
    obtain ⟨blanks, row, rest, hrows, hblanks, hfirst⟩ := h.exists_first
    exact ⟨blanks, row, rest, hrows, hblanks, first, hfirst, rfl⟩
  mem_rules n := by
    obtain ⟨left, right⟩ := n
    simp only [mem_rules_writtenGrammar, h.mem_iff, WrittenRule.mk.injEq, ← pieces_eq_iff,
      exists_eq_left', rightSide_iff (isLeft_iff h)]
    refine ⟨?_, ?_⟩
    · rintro ⟨head, ⟨row, hrow, hhead⟩, p, hp, rfl, rfl⟩
      exact ⟨row, hrow, head, hhead, rfl, p, hp, rfl⟩
    · rintro ⟨row, hrow, head, hhead, rfl, p, hp, rfl⟩
      exact ⟨head, ⟨row, hrow, hhead⟩, p, hp, rfl, rfl⟩

/-- There is one first line that is not blank. -/
theorem first_unique {blanks blanks' rest rest' : List (List Char)} {row row' : List Char}
    (h : blanks ++ row :: rest = blanks' ++ row' :: rest') (hblanks : ∀ b ∈ blanks, Blank b)
    (hblanks' : ∀ b ∈ blanks', Blank b) (hrow : ¬Blank row) (hrow' : ¬Blank row') :
    row = row' := by
  rcases List.append_eq_append_iff.1 h with ⟨l, rfl, hl⟩ | ⟨l, rfl, hl⟩
  · cases l with
    | nil => exact (List.cons.inj hl).1
    | cons b l =>
      obtain rfl := (List.cons.inj hl).1
      exact absurd (hblanks' row (by simp)) hrow
  · cases l with
    | nil => exact (List.cons.inj hl).1.symm
    | cons b l =>
      obtain rfl := (List.cons.inj hl).1
      exact absurd (hblanks row' (by simp)) hrow'

/-- **Lines do not say two things.** -/
theorem Says.unique (h : Says rows w) (h' : Says rows w') : w = w' := by
  have hroot : w.root = w'.root := by
    obtain ⟨blanks, row, rest, hrows, hblanks, head, hhead, hw⟩ := h.root
    obtain ⟨blanks', row', rest', hrows', hblanks', head', hhead', hw'⟩ := h'.root
    obtain rfl : row = row' := first_unique (hrows.symm.trans hrows') hblanks hblanks'
      hhead.not_blank hhead'.not_blank
    rw [← RuleLine.ofText_eq_ok_iff] at hhead hhead'
    rw [hw, hw', Except.ok.inj (hhead.symm.trans hhead')]
  have hrules : w.rules = w'.rules := Set.ext fun n => (h.mem_rules n).trans (h'.mem_rules n).symm
  exact WrittenGrammar.ext hroot hrules

end Says

/-! ## Reading -/

section Reading

variable {lefts : List (List Char)} {labels : Set Label} {head first : RuleLine}
  {heads : List RuleLine} {text : String}

theorem ofList_ne_empty {name : List Char} (h : name ≠ []) : String.ofList name ≠ "" := by
  simpa [← String.toList_inj] using h

theorem obtains_rightSideOfText {p : List Char}
    (hlabels : ∀ l ∈ labelsOf lefts (words p), l ∈ labels) (t : SymbolTable) :
    Obtains labels (rightSideOfText lefts p)
      (fun t right => List.Forall₂ t.StandsFor right (labelsOf lefts (words p))) t := by
  rw [rightSideOfText]
  by_cases halone : words p = ["eps".toList] ∨ words p = ["ε".toList]
  · rw [labelsOf, if_pos halone, if_pos (standsAlone_iff.2 halone)]
    exact .pure fun _ _ => .nil
  · rw [labelsOf, if_neg halone] at hlabels ⊢
    rw [if_neg (mt standsAlone_iff.1 halone)]
    have hname : ∀ name ∈ words p, ∀ t', t.Grows t' → Obtains labels
        (intern (if name ∈ lefts then .nonterminal else .terminal) (String.ofList name))
        (fun t s => t.StandsFor s (labelOf lefts name)) t' := by
      intro name hmem t' _
      rw [labelOf_eq]
      refine .intern (ofList_ne_empty (solid_of_mem_words hmem).2.1) ?_
      exact hlabels _ (List.mem_map.2 ⟨name, hmem, labelOf_eq lefts name⟩)
    exact (Obtains.mapM hname).mono fun t' right hright => List.forall₂_map_right_iff.2 hright

theorem obtains_rulesOfLine (hleft : head.left ≠ [])
    (hlabels : ∀ n ∈ writtenRules lefts head, ∀ l, l = n.left ∨ l ∈ n.right → l ∈ labels)
    (t : SymbolTable) :
    Obtains labels (rulesOfLine lefts head)
      (fun t rules => List.Forall₂ (Rule.StandsFor t) rules (writtenRules lefts head)) t := by
  have hlabel : (.nonterminal, String.ofList head.left) ∈ labels := by
    obtain ⟨n, ns, hns, hn⟩ := exists_writtenRules_eq_cons lefts head
    exact hlabels n (hns ▸ List.mem_cons_self) _ (.inl hn.symm)
  rw [rulesOfLine]
  refine .bind (.intern (ofList_ne_empty hleft) hlabel) fun left t₁ _ hleft => ?_
  have hpiece : ∀ p ∈ pieces (· == '|') head.rest, ∀ t', t₁.Grows t' → Obtains labels
      (do return ⟨left, ← rightSideOfText lefts p⟩)
      (fun t r => Rule.StandsFor t r
        ⟨(.nonterminal, String.ofList head.left), labelsOf lefts (words p)⟩) t' := by
    intro p hp t' hgrows
    refine .bind (obtains_rightSideOfText (fun l hl => ?_) t') fun right t₂ hgrows' hright =>
      .pure fun t₃ hgrows'' => ⟨?_, hright t₃ hgrows''⟩
    · exact hlabels _ (List.mem_map.2 ⟨p, hp, rfl⟩) l (.inr hl)
    · exact hleft t₃ ((hgrows.trans hgrows').trans hgrows'')
  exact (Obtains.mapM hpiece).mono fun t' rules hrules => List.forall₂_map_right_iff.2 hrules

/-- **What is read from lines stands for what they say.** -/
theorem obtains_ofText (h : Heads (first :: heads) (lines text.toList)) (t : SymbolTable) :
    Obtains (writtenGrammar first heads).labels (ofText text)
      (fun t g => g.StandsFor t (writtenGrammar first heads)) t := by
  have hleft : ∀ head ∈ first :: heads, head.left ≠ [] := by
    intro head hmem
    obtain ⟨_, _, _, _, _, _, hne, _⟩ := h.mem_iff.1 hmem
    exact hne
  have hrules : ∀ head ∈ first :: heads, ∀ n ∈ writtenRules ((first :: heads).map RuleLine.left)
      head, ∀ l, l = n.left ∨ l ∈ n.right → l ∈ (writtenGrammar first heads).labels :=
    fun head hmem n hn l hl => .inr ⟨n, List.mem_flatMap.2 ⟨head, hmem, hn⟩, hl⟩
  obtain ⟨n, ns, hns, hn⟩ :=
    exists_writtenRules_eq_cons ((first :: heads).map RuleLine.left) first
  have hread : Obtains (writtenGrammar first heads).labels (ofExcept
      (ruleLinesOfText 1 (lines text.toList))) (fun _ all => all = first :: heads) t := by
    rw [h.ruleLinesOfText_eq_ok]
    exact .pure fun _ _ => rfl
  rw [ofText]
  refine .bind hread fun all t₁ _ hall => ?_
  obtain rfl := hall t₁ .refl
  refine .bind (.mapM fun head hmem t' _ =>
    obtains_rulesOfLine (hleft head hmem) (hrules head hmem) t') fun rules t₂ _ hlines => ?_
  have hflat : ∀ t₃, t₂.Grows t₃ → List.Forall₂ (Rule.StandsFor t₃) rules.flatten
      ((first :: heads).flatMap (writtenRules ((first :: heads).map RuleLine.left))) := by
    intro t₃ hgrows
    rw [List.flatMap]
    exact List.rel_flatten (List.forall₂_map_right_iff.2 (hlines t₃ hgrows))
  -- the first rule of all is the first one of the first line
  have hfirst : (first :: heads).flatMap (writtenRules ((first :: heads).map RuleLine.left)) =
      n :: (ns ++ heads.flatMap (writtenRules ((first :: heads).map RuleLine.left))) := by
    rw [List.flatMap_cons, hns, List.cons_append]
  obtain ⟨r, rest, _, _, hr⟩ := List.forall₂_cons_right_iff.1 (hfirst ▸ hflat t₂ .refl)
  rw [hr] at hflat ⊢
  refine .pure fun t₃ hgrows => ⟨?_, fun r' hr' => ?_, fun n' hn' => ?_⟩
  · have hrn : r.StandsFor t₃ n := (List.forall₂_cons.1 (hfirst ▸ hflat t₃ hgrows)).1
    show t₃.StandsFor r.left (.nonterminal, String.ofList first.left)
    rw [← hn]
    exact hrn.left
  · exact exists_right_of_forall₂ (hflat t₃ hgrows) (FinSet.mem_ofList.1 hr')
  · obtain ⟨r', hr', hrn'⟩ := exists_left_of_forall₂ (hflat t₃ hgrows) hn'
    exact ⟨r', FinSet.mem_ofList.2 hr', hrn'⟩

/-- A text that is read has lines that can be cut, and one of them at least. -/
theorem exists_heads_of_run {g : Grammar} {table table' : SymbolTable}
    (h : (ofText text).run table = .ok g table') :
    ∃ first heads, Heads (first :: heads) (lines text.toList) := by
  rw [ofText] at h
  cases hlines : ruleLinesOfText 1 (lines text.toList) with
  | error e =>
    rw [hlines] at h
    cases h
  | ok heads =>
    rw [hlines] at h
    cases heads with
    | nil => cases h
    | cons first heads => exact ⟨first, heads, heads_of_ruleLinesOfText hlines⟩

/-- **A text is read as what it says**, which is one thing only, and on whatever table.  Otherwise
there are lines that are neither blank nor of the format, of which the first is reported, or there
are blank lines only. -/
theorem ofText_reads_format (text : String) (table : SymbolTable) :
    (∀ i row reason, (lines text.toList)[i]? = some row → LineFault reason row →
      (∀ j < i, ∀ row' reason', (lines text.toList)[j]? = some row' → ¬LineFault reason' row') →
      (ofText text).run table =
        .error (.malformed (i + 1) (String.ofList (trimmed row)) reason) table) ∧
    ((∀ row ∈ lines text.toList, Blank row) →
      (ofText text).run table = .error .missingStart table) ∧
    ((∀ row ∈ lines text.toList, ∀ reason, ¬LineFault reason row) →
      (∃ row ∈ lines text.toList, ¬Blank row) →
      ∃ g table' w, (ofText text).run table = .ok g table' ∧ table.Grows table' ∧
        (∀ w', Says (lines text.toList) w' ↔ w' = w) ∧ g.StandsFor table' w) := by
  refine ⟨fun i row reason hrow hfault hbefore => ?_, fun hblank => ?_, fun hlines hsome => ?_⟩
  · rw [ofText, ruleLinesOfText_eq_error hrow hfault hbefore, Nat.add_comm]
    rfl
  · have hlines : ∀ row ∈ lines text.toList, ∀ reason, ¬LineFault reason row :=
      fun row hrow _ hfault => hfault.not_blank (hblank row hrow)
    obtain ⟨heads, hheads⟩ := exists_heads hlines
    obtain rfl := hheads.eq_nil_iff.2 hblank
    rw [ofText, hheads.ruleLinesOfText_eq_ok]
    rfl
  · obtain ⟨heads, hheads⟩ := exists_heads hlines
    cases heads with
    | nil =>
      obtain ⟨row, hrow, hrow'⟩ := hsome
      exact absurd (hheads.eq_nil_iff.1 rfl row hrow) hrow'
    | cons first heads =>
      obtain ⟨g, table', hrun, hgrows, _, hg⟩ := obtains_ofText hheads table
      have hsays := says_writtenGrammar hheads
      refine ⟨g, table', _, hrun, hgrows, fun w' => ⟨fun h => h.unique hsays, ?_⟩, hg table' .refl⟩
      rintro rfl
      exact hsays

/-- A name that comes twice on the left, once after it is used, with arrows, bars and the names for
the empty alternative wherever they may be. -/
def repeatedLefts : String := "S -> a T | eps\n\nT->ε|S->T eps|T||T\n S -> |a"

theorem repeatedLefts_reads_format :
    ((lines "S -> a\n T -".toList)[1]? = some " T -".toList ∧
      (ofText "S -> a\n T -").run {} =
        .error (.malformed 2 "T -" "expected a rule of the form LHS -> RHS") {}) ∧
    ((∀ row ∈ lines " \n".toList, Blank row) ∧ (ofText " \n").run {} = .error .missingStart {}) ∧
    (∀ row ∈ lines repeatedLefts.toList, ∀ reason, ¬LineFault reason row) ∧
    (∃ row ∈ lines repeatedLefts.toList, ¬Blank row) ∧
    ∃ g table' w, (ofText repeatedLefts).run ⟨[(.terminal, "T")]⟩ = .ok g table' ∧
      SymbolTable.Grows ⟨[(.terminal, "T")]⟩ table' ∧
      (∀ w', Says (lines repeatedLefts.toList) w' ↔ w' = w) ∧ g.StandsFor table' w := by
  have hrow : (lines "S -> a\n T -".toList)[1]? = some " T -".toList := by cbv
  have hblank : ∀ row ∈ lines " \n".toList, Blank row := by decide
  have hread : ∀ row ∈ lines repeatedLefts.toList,
      Blank row ∨ (RuleLine.ofText row).isOk = true := by decide +kernel
  have hlines : ∀ row ∈ lines repeatedLefts.toList, ∀ reason, ¬LineFault reason row := by
    intro row hrow reason hfault
    rcases hread row hrow with hempty | hok
    · exact hfault.not_blank hempty
    · exact RuleLine.not_fault_of_isOk hok hfault
  have hsome : ∃ row ∈ lines repeatedLefts.toList, ¬Blank row := by decide +kernel
  refine ⟨⟨hrow, ?_⟩, ⟨hblank, (ofText_reads_format _ _).2.1 hblank⟩, hlines, hsome,
    (ofText_reads_format _ _).2.2 hlines hsome⟩
  refine (ofText_reads_format _ _).1 1 _ _ hrow (.noArrow (by decide) (by decide)) ?_
  intro j hj row reason hbefore
  obtain rfl : j = 0 := by omega
  have hfirst : (lines "S -> a\n T -".toList)[0]? = some "S -> a".toList := by cbv
  rw [hfirst, Option.some_inj] at hbefore
  rw [← hbefore]
  exact RuleLine.not_fault_of_isOk (by decide +kernel)

end Reading

end Grammar

end Automata
