import Automata.Proofs.DescriptionFormat
import Mathlib

/-!
# The order of a description does not matter

A description keeps what was said and not when, except that the start is the one that was named
last.  A text can name one start only, so its lines may stand in any order, and be repeated or set
apart by blank lines.  Whether a line can be read has nothing to do with the other lines, apart from
the start.

## What is here

* `Text.Content` — what the lines of a text have between their blanks, and
  `Text.content_lines_intercalate` — what it is for lines that are written one after the other.
* `Description.lastStart`, `Description.addAll_perm` — **statements may be made in any order that
  keeps the last start.**
* `Description.Said`, `Description.ofText_eq_ok_iff_said` — **a text is read exactly if each line
  can be read and no two of them name different starts**, and then as what they say.
* `Description.ofText_congr` — texts whose lines have the same contents are read alike.
* `Description.order_does_not_matter` — the two facts about the order together.
-/

set_option autoImplicit false

namespace Automata

/-! ## Contents of lines -/

namespace Text

variable {l gap c : List Char} {rows rows' : List (List Char)}

/-- Blanks behind a text are trimmed with those that it ends with. -/
theorem trimmed_append_blank (hgap : Blank gap) : trimmed (l ++ gap) = trimmed l := by
  by_cases hl : Blank l
  · have hall : Blank (l ++ gap) := fun c hc => (List.mem_append.1 hc).elim (hl c) (hgap c)
    rw [trimmed_eq_nil_iff.2 hall, trimmed_eq_nil_iff.2 hl]
  · obtain ⟨front, hfront, heq⟩ := exists_trimmedFront l
    have hne : trimmedFront l ≠ [] := fun h => hl (by rwa [heq, h, List.append_nil])
    have hback : trimmedFront (l ++ gap) = trimmedFront l ++ gap := by
      conv_lhs => rw [heq, List.append_assoc, trimmedFront_append hfront]
      exact trimmedFront_of_flush ((flush_trimmedFront l).append hne)
    rw [trimmed, hback, List.reverse_append, trimmedFront_append hgap.reverse, trimmed]

theorem trimmed_withoutReturn (l : List Char) : trimmed (withoutReturn l) = trimmed l := by
  rw [withoutReturn]
  split
  · rename_i h
    have hreturn : Blank ['\r'] := by decide
    conv_rhs => rw [← List.dropLast_append_getLast? _ h, trimmed_append_blank hreturn]
  · rfl

/-- All pieces but the last are lines, and the last is one if it is not empty. -/
theorem exists_lines_eq (l : List Char) : ∃ front last,
    pieces (· == '\n') l = front ++ [last] ∧
      lines l = front.map withoutReturn ++ if last.isEmpty then [] else [last] := by
  have hne := pieces_ne_nil (· == '\n') l
  refine ⟨_, _, (List.dropLast_append_getLast hne).symm, ?_⟩
  rw [lines, List.getLast?_eq_some_getLast hne, Option.getD_some]

/-- A line end belongs to no line. -/
theorem not_mem_of_mem_lines {row : List Char} (h : row ∈ lines l) : '\n' ∉ row := by
  obtain ⟨front, last, hpieces, hlines⟩ := exists_lines_eq l
  have hpiece : ∀ w ∈ front ++ [last], '\n' ∉ w := fun w hw =>
    not_mem_of_mem_pieces (hpieces ▸ hw)
  rw [hlines] at h
  rcases List.mem_append.1 h with h | h
  · obtain ⟨w, hw, rfl⟩ := List.mem_map.1 h
    have hw := hpiece w (List.mem_append_left _ hw)
    rw [withoutReturn]
    split
    · exact fun hmem => hw (List.mem_of_mem_dropLast hmem)
    · exact hw
  · split at h
    · exact absurd h List.not_mem_nil
    · exact hpiece row (List.mem_append_right _ h)

/-- Some line is not blank and has this content between its blanks. -/
def Content (rows : List (List Char)) (c : List Char) : Prop :=
  c ≠ [] ∧ ∃ row ∈ rows, trimmed row = c

theorem content_append_iff : Content (rows ++ rows') c ↔ Content rows c ∨ Content rows' c := by
  simp only [Content, List.mem_append, or_and_right, exists_or, and_or_left]

theorem content_map_withoutReturn : Content (rows.map withoutReturn) c ↔ Content rows c := by
  simp only [Content, List.mem_map, exists_exists_and_eq_and, trimmed_withoutReturn]

/-- An empty line has no content. -/
theorem not_content_empty : ¬Content [[]] c := by
  rintro ⟨hc, row, hrow, rfl⟩
  rw [List.mem_singleton.1 hrow] at hc
  exact hc (trimmed_eq_nil_iff.2 blank_nil)

/-- It does not matter for the contents how lines end, and whether the last one does. -/
theorem content_lines_iff : Content (lines l) c ↔ Content (pieces (· == '\n') l) c := by
  obtain ⟨front, last, hpieces, hlines⟩ := exists_lines_eq l
  rw [hpieces, hlines, content_append_iff, content_append_iff, content_map_withoutReturn]
  refine or_congr_right ?_
  split
  · rename_i hlast
    rw [List.isEmpty_iff.1 hlast]
    exact iff_of_false (by simp [Content]) not_content_empty
  · rfl

/-- Lines that are written one after the other keep their contents. -/
theorem content_lines_intercalate (hrows : ∀ row ∈ rows, '\n' ∉ row) :
    Content (lines (['\n'].intercalate rows)) c ↔ Content rows c := by
  rw [content_lines_iff]
  by_cases hne : rows = []
  · subst hne
    exact iff_of_false not_content_empty (by simp [Content])
  · rw [pieces_eq_iff.2 ⟨hne, hrows, rfl⟩]

end Text

/-- The start that a statement names. -/
def Statement.start? : Statement → Option State
  | start q => some q
  | final _ => none
  | state _ => none
  | edge _ => none

namespace Description

open Text

variable {d : Description} {rows rows' : List (List Char)} {l l' statements : List Statement}
  {said : List (List Statement)} {line c : List Char} {s : Statement} {text text' : String}

/-! ## Statements in any order -/

/-- The start that is named last, if one is named. -/
def lastStart (statements : List Statement) : Option State :=
  (statements.filterMap Statement.start?).getLast?

/-- The start is the one that was named last. -/
theorem start_addAll_eq_or (d : Description) (statements : List Statement) :
    (d.addAll statements).start = (lastStart statements).or d.start := by
  induction statements generalizing d with
  | nil => rfl
  | cons s statements ih =>
    have hadd : (d.add s).start = s.start?.or d.start := by cases s <;> rfl
    have hlast : lastStart (s :: statements) = (lastStart statements).or s.start? := by
      rw [lastStart, List.filterMap_cons]
      cases s.start? with
      | none => exact (Option.or_none).symm
      | some q =>
        rw [List.getLast?_cons, lastStart]
        cases (statements.filterMap Statement.start?).getLast? <;> rfl
    rw [hlast, Option.or_assoc, ← hadd]
    exact ih (d.add s)

/-- **Statements may be made in any order that keeps the last start.** -/
theorem addAll_perm (hperm : l.Perm l') (hstart : lastStart l = lastStart l') :
    d.addAll l = d.addAll l' := by
  refine addAll_congr ?_ fun s => hperm.mem_iff
  rw [start_addAll_eq_or, start_addAll_eq_or, hstart]

/-- Nor does the order matter as long as no two different starts are named. -/
theorem addAll_congr_of_oneStart (hone : OneStart d.start l) (hmem : ∀ s, s ∈ l ↔ s ∈ l') :
    d.addAll l = d.addAll l' := by
  have hone' : OneStart d.start l' := by
    simpa only [OneStart, hmem] using hone
  refine addAll_congr (Option.ext fun q => ?_) hmem
  rw [start_addAll_eq_some_iff hone, start_addAll_eq_some_iff hone', hmem]

/-! ## Lines in any order -/

/-- A line does not contradict itself. -/
theorem Line.oneStart (h : Line l c) : OneStart none l := by
  cases h with
  | blank => exact oneStart_nil none
  | bare _ _ => exact (oneStart_iff fun _ => start_mem_headStatements).2 fun _ _ h => nomatch h
  | arrow _ _ _ hedges =>
    exact (oneStart_iff fun _ => hedges.start_mem_append_iff).2 fun _ _ h => nomatch h

/-- A line says one thing only. -/
theorem Line.unique (h : Line l (trimmed line)) (h' : Line l' (trimmed line)) : l = l' := by
  by_cases hnil : trimmed line = []
  · rw [h.eq_nil hnil, h'.eq_nil hnil]
  · have hread := statementsOfLine_eq_ok_iff.2 ⟨hnil, h, h.oneStart⟩
    have hread' := statementsOfLine_eq_ok_iff.2 ⟨hnil, h', h'.oneStart⟩
    exact Except.ok.inj (hread.symm.trans hread')

/-- One of the lines says this. -/
def Said (rows : List (List Char)) (s : Statement) : Prop :=
  ∃ c, Content rows c ∧ ∃ l, Line l c ∧ s ∈ l

/-- What the lines say one by one is what one of them says. -/
theorem mem_flatten_iff_said
    (hsaid : List.Forall₂ (fun line l => Line l (trimmed line)) rows said) :
    s ∈ said.flatten ↔ Said rows s := by
  rw [List.mem_flatten]
  constructor
  · rintro ⟨l, hl, hs⟩
    obtain ⟨row, hrow, hline⟩ := exists_left_of_forall₂ hsaid hl
    refine ⟨_, ⟨fun hnil => ?_, row, hrow, rfl⟩, l, hline, hs⟩
    rw [hline.eq_nil hnil] at hs
    exact List.not_mem_nil hs
  · rintro ⟨_, ⟨_, row, hrow, rfl⟩, l, hline, hs⟩
    obtain ⟨l', hl', hline'⟩ := exists_right_of_forall₂ hsaid hrow
    exact ⟨l', hl', hline.unique hline' ▸ hs⟩

/-- Lines say something together exactly if each of them says something and they do not name
different starts. -/
theorem exists_says_iff : (∃ statements, Says rows statements) ↔
    (∀ c, Content rows c → ∃ l, Line l c) ∧
      ∀ p q, Said rows (.start p) → Said rows (.start q) → p = q := by
  constructor
  · rintro ⟨_, said, hsaid, rfl, hone⟩
    refine ⟨?_, fun p q hp hq => ?_⟩
    · rintro _ ⟨_, row, hrow, rfl⟩
      obtain ⟨l, _, hline⟩ := exists_right_of_forall₂ hsaid hrow
      exact ⟨l, hline⟩
    · have hp := (mem_flatten_iff_said hsaid).2 hp
      have hq := (mem_flatten_iff_said hsaid).2 hq
      exact hone p q (.inr hp) (.inr hq)
  · rintro ⟨hlines, hstart⟩
    have hread : ∀ row ∈ rows, ∃ l, Line l (trimmed row) := by
      intro row hrow
      by_cases hnil : trimmed row = []
      · exact ⟨[], hnil ▸ .blank⟩
      · exact hlines _ ⟨hnil, row, hrow, rfl⟩
    obtain ⟨said, hsaid⟩ := exists_forall₂ hread
    refine ⟨said.flatten, said, hsaid, rfl, fun p q hp hq => hstart p q ?_ ?_⟩
    · exact (mem_flatten_iff_said hsaid).1 (hp.resolve_left nofun)
    · exact (mem_flatten_iff_said hsaid).1 (hq.resolve_left nofun)

/-- **A text is read exactly if each line can be read and no two of them name different starts**,
and then as what they say, in whichever order. -/
theorem ofText_eq_ok_iff_said : ofText text = .ok d ↔
    (∀ c, Content (lines text.toList) c → ∃ l, Line l c) ∧
      (∀ p q, Said (lines text.toList) (.start p) → Said (lines text.toList) (.start q) → p = q) ∧
      ∃ statements, (∀ s, s ∈ statements ↔ Said (lines text.toList) s) ∧
        d = empty.addAll statements := by
  rw [(ofText_exact text).1, ← and_assoc, ← exists_says_iff]
  constructor
  · rintro ⟨statements, hsays, rfl⟩
    obtain ⟨said, hsaid, rfl, _⟩ := id hsays
    exact ⟨⟨_, hsays⟩, _, fun _ => mem_flatten_iff_said hsaid, rfl⟩
  · rintro ⟨⟨_, hsays⟩, statements, hmem, rfl⟩
    obtain ⟨said, hsaid, rfl, hone⟩ := id hsays
    refine ⟨_, hsays, (addAll_congr_of_oneStart hone fun s => ?_).symm⟩
    rw [mem_flatten_iff_said hsaid, hmem]

/-- **Texts whose lines have the same contents are read alike.** -/
theorem ofText_congr
    (h : ∀ c, Content (lines text.toList) c ↔ Content (lines text'.toList) c) :
    ofText text = .ok d ↔ ofText text' = .ok d := by
  simp only [ofText_eq_ok_iff_said, Said, h]

/-- **The order of a description does not matter.**  Statements may be made in any order that keeps
the last start: whatever is made of the description is the same, or fails with the same error.  The
lines of a text that can be read may stand in any order, and are read as the same description. -/
theorem order_does_not_matter :
    (∀ (d : Description) (l l' : List Statement), l.Perm l' → lastStart l = lastStart l' →
      (d.addAll l).toNFA = (d.addAll l').toNFA ∧ (d.addAll l).toDFA = (d.addAll l').toDFA ∧
        (d.addAll l).toRecognizer = (d.addAll l').toRecognizer ∧
        ∀ outputs, (d.addAll l).toMoore outputs = (d.addAll l').toMoore outputs) ∧
    ∀ (text : String) (d : Description), ofText text = .ok d →
      (∀ text' : String, (lines text'.toList).Perm (lines text.toList) → ofText text' = .ok d) ∧
        ∀ rows, rows.Perm (lines text.toList) →
          ofText (String.ofList (['\n'].intercalate rows)) = .ok d := by
  refine ⟨fun d l l' hperm hstart => ?_, fun text d hok => ⟨fun text' hperm => ?_,
    fun rows hperm => ?_⟩⟩
  · rw [addAll_perm hperm hstart]
    exact ⟨rfl, rfl, rfl, fun _ => rfl⟩
  · refine (ofText_congr fun c => ?_).2 hok
    simp only [Content, hperm.mem_iff]
  · refine (ofText_congr fun c => ?_).2 hok
    have hrows : ∀ row ∈ rows, '\n' ∉ row := fun row hrow =>
      not_mem_of_mem_lines (hperm.mem_iff.1 hrow)
    rw [String.toList_ofList, content_lines_intercalate hrows]
    simp only [Content, hperm.mem_iff]

/-- Two states with two targets each.  The start that is named first is not the start. -/
def forking : List Statement :=
  [.start "p", .edge ⟨"q", 'b', "r"⟩, .edge ⟨"q", 'b', "p"⟩, .edge ⟨"p", 'a', "q"⟩,
    .edge ⟨"p", 'a', "p"⟩, .final "r", .start "q"]

/-- The same in another order. -/
def forkingShuffled : List Statement :=
  [.edge ⟨"p", 'a', "p"⟩, .final "r", .edge ⟨"q", 'b', "p"⟩, .start "p", .edge ⟨"p", 'a', "q"⟩,
    .start "q", .edge ⟨"q", 'b', "r"⟩]

/-- Two lines that name the start, and all kinds of line ends. -/
def twiceMarked : String := "-> s -> a t | a s\r\n\n() t\n->()s"

theorem forking_order_does_not_matter :
    (forking.Perm forkingShuffled ∧ lastStart forking = lastStart forkingShuffled ∧
      (empty.addAll forking).toDFA = .error (.ambiguous "p" 'a' ["p", "q"]) ∧
      (empty.addAll forkingShuffled).toDFA = .error (.ambiguous "p" 'a' ["p", "q"]) ∧
      (empty.addAll forking).toNFA = (empty.addAll forkingShuffled).toNFA) ∧
    ∃ d, ofText twiceMarked = .ok d ∧
      ofText "() t\n->()s\n\n-> s -> a t | a s\n" = .ok d ∧
      ofText "\n->()s\n-> s -> a t | a s\n() t" = .ok d := by
  have hlines : lines twiceMarked.toList =
      ["-> s -> a t | a s".toList, [], "() t".toList, "->()s".toList] := by cbv
  have hlines' : lines "() t\n->()s\n\n-> s -> a t | a s\n".toList =
      ["() t".toList, "->()s".toList, [], "-> s -> a t | a s".toList] := by cbv
  have hperm : forking.Perm forkingShuffled := by decide
  obtain ⟨hnfa, hdfa, _⟩ := order_does_not_matter.1 empty _ _ hperm rfl
  have hfork : (empty.addAll forking).toDFA = .error (.ambiguous "p" 'a' ["p", "q"]) := by cbv
  have hok : ofText twiceMarked = .ok (empty.addAll [.start "s", .state "s", .edge ⟨"s", 'a', "t"⟩,
      .edge ⟨"s", 'a', "s"⟩, .final "t", .state "t", .start "s", .final "s", .state "s"]) := by cbv
  obtain ⟨htext, hrows⟩ := order_does_not_matter.2 _ _ hok
  refine ⟨⟨hperm, rfl, hfork, hdfa ▸ hfork, hnfa⟩, _, hok, htext _ ?_, hrows
    [[], "->()s".toList, "-> s -> a t | a s".toList, "() t".toList] ?_⟩
  · rw [hlines, hlines']
    decide
  · rw [hlines]
    decide

end Description

end Automata
