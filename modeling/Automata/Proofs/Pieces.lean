import Automata.Text.Blank
import Mathlib.Data.List.DropRight
import Mathlib.Data.List.Infix

/-!
# Cutting texts

Texts are trimmed, and cut into pieces, into words and at arrows.  Each way of cutting is described
by the texts that are cut so.

## What is here

* `Text.Blank`, `Text.Solid`, `Text.Flush` — texts of blanks only, texts without blanks, and texts
  that do not begin with one.
* `Text.trimmed_append`, `Text.exists_trimmed` — trimming takes the blanks off both ends and no
  more.
* `Text.pieces_append`, `Text.pieces_cases` — the first piece of a text.
* `Text.Joined`, `Text.pieces_eq_iff` — pieces are what is joined by separators, and
  `Text.lines_intercalate` — so are lines.
* `Text.words_eq_nil_iff`, `Text.words_eq_cons_iff` — the first word of a text.
* `Text.Spaced`, `Text.words_eq_iff` — words are what has blanks between, before and behind it.
* `Text.cutAtArrow_eq_some_iff`, `Text.cutAtArrow_eq_none_iff` — **a text is cut at its first
  arrow.**
-/

set_option autoImplicit false

namespace Automata

namespace Text

variable {l l' v w gap : List Char} {c : Char}

/-- All characters are blank, if there are any. -/
def Blank (l : List Char) : Prop := ∀ c ∈ l, isBlank c = true

/-- No character is blank. -/
def Solid (l : List Char) : Prop := ∀ c ∈ l, isBlank c = false

/-- The text does not begin with a blank. -/
def Flush (l : List Char) : Prop := ∀ c ∈ l.head?, isBlank c = false

-- the quantifiers run over the list, not over all characters
instance (l : List Char) : Decidable (Blank l) :=
  decidable_of_iff (l.all isBlank = true) List.all_eq_true

instance (l : List Char) : Decidable (Solid l) :=
  decidable_of_iff ((l.all fun c => !isBlank c) = true) (by simp [Solid])

theorem blank_nil : Blank [] := fun _ h => absurd h List.not_mem_nil

theorem flush_cons_iff : Flush (c :: l) ↔ isBlank c = false :=
  ⟨fun h => h c rfl, fun h _ hc => Option.some_inj.1 hc ▸ h⟩

theorem Solid.flush (h : Solid l) : Flush l := fun c hc => h c (List.mem_of_mem_head? hc)

theorem Blank.reverse (h : Blank l) : Blank l.reverse := fun c hc => h c (List.mem_reverse.1 hc)

theorem Solid.reverse (h : Solid l) : Solid l.reverse := fun c hc => h c (List.mem_reverse.1 hc)

theorem Flush.append (h : Flush l) (hne : l ≠ []) : Flush (l ++ l') := by
  obtain ⟨c, rest, rfl⟩ := List.exists_cons_of_ne_nil hne
  exact flush_cons_iff.2 (flush_cons_iff.1 h)

theorem Flush.of_append (h : Flush (l ++ l')) : Flush l := by
  cases l with
  | nil => exact fun _ h => nomatch h
  | cons c rest => exact flush_cons_iff.2 (flush_cons_iff.1 h)

/-! ## Trimming -/

theorem trimmedFront_of_flush (h : Flush l) : trimmedFront l = l := by
  cases l with
  | nil => rfl
  | cons c rest => exact List.dropWhile_cons_of_neg (by simp [flush_cons_iff.1 h])

theorem trimmedFront_append (hgap : Blank gap) : trimmedFront (gap ++ l) = trimmedFront l :=
  List.dropWhile_append_of_pos hgap

theorem flush_trimmedFront (l : List Char) : Flush (trimmedFront l) := by
  induction l with
  | nil => exact fun _ h => nomatch h
  | cons c l ih =>
    rw [trimmedFront, List.dropWhile_cons]
    split
    · exact ih
    · rename_i hc
      exact flush_cons_iff.2 (Bool.eq_false_iff.2 hc)

/-- What is trimmed off the front is blank. -/
theorem exists_trimmedFront (l : List Char) : ∃ gap, Blank gap ∧ l = gap ++ trimmedFront l :=
  ⟨l.takeWhile isBlank, fun _ hc => List.mem_takeWhile_imp hc,
    List.takeWhile_append_dropWhile.symm⟩

/-- What is trimmed off the end is blank. -/
theorem exists_trimmed (l : List Char) : ∃ gap, Blank gap ∧ trimmedFront l = trimmed l ++ gap := by
  obtain ⟨gap, hgap, hl⟩ := exists_trimmedFront (trimmedFront l).reverse
  refine ⟨gap.reverse, hgap.reverse, ?_⟩
  rw [trimmed, ← List.reverse_append, ← hl, List.reverse_reverse]

theorem trimmed_infix (l : List Char) : trimmed l <:+: l := by
  obtain ⟨front, _, hl⟩ := exists_trimmedFront l
  obtain ⟨back, _, hl'⟩ := exists_trimmed l
  exact ⟨front, back, by rw [List.append_assoc, ← hl', ← hl]⟩

theorem flush_trimmed (l : List Char) : Flush (trimmed l) := by
  obtain ⟨gap, _, hl⟩ := exists_trimmed l
  exact (hl ▸ flush_trimmedFront l).of_append

/-- Trimming takes off the blanks behind a text without blanks. -/
theorem trimmed_append (hw : Solid w) (hgap : Blank gap) : trimmed (w ++ gap) = w := by
  have hback : trimmedFront (w ++ gap).reverse = w.reverse := by
    rw [List.reverse_append, trimmedFront_append hgap.reverse,
      trimmedFront_of_flush hw.reverse.flush]
  cases w with
  | nil =>
    have hnil : trimmedFront ([] ++ gap) = [] := by
      rw [List.nil_append, ← List.append_nil gap, trimmedFront_append hgap, trimmedFront_of_flush]
      exact fun _ h => nomatch h
    rw [trimmed, hnil]
    rfl
  | cons c w =>
    rw [trimmed, trimmedFront_of_flush (hw.flush.append (List.cons_ne_nil c w)), hback,
      List.reverse_reverse]

/-- Nothing is left of a text exactly if it is blank. -/
theorem trimmed_eq_nil_iff : trimmed l = [] ↔ Blank l := by
  refine ⟨fun h => ?_, fun h => trimmed_append (w := []) (fun _ hc => absurd hc List.not_mem_nil) h⟩
  obtain ⟨front, hfront, hl⟩ := exists_trimmedFront l
  obtain ⟨back, hback, hl'⟩ := exists_trimmed l
  rw [hl', h, List.nil_append] at hl
  intro c hc
  rw [hl] at hc
  exact (List.mem_append.1 hc).elim (hfront c) (hback c)

/-- No blank is left at the end. -/
theorem eq_nil_of_trimmed_eq (h : trimmed l = v ++ gap) (hgap : Blank gap) : gap = [] := by
  have hflush : Flush (gap.reverse ++ v.reverse) := by
    rw [← List.reverse_append, ← h, trimmed, List.reverse_reverse]
    exact flush_trimmedFront _
  by_contra hne
  obtain ⟨c, rest, hrev⟩ := List.exists_cons_of_ne_nil (List.reverse_ne_nil_iff.2 hne)
  rw [hrev, List.cons_append, flush_cons_iff,
    hgap c (List.mem_reverse.1 (hrev ▸ List.mem_cons_self))] at hflush
  cases hflush

/-! ## Pieces -/

section Pieces

variable {p : Char → Bool}

theorem pieces_eq_singleton (h : ∀ c ∈ l, p c = false) : pieces p l = [l] := by
  induction l with
  | nil => rfl
  | cons c l ih =>
    obtain ⟨hc, hl⟩ := List.forall_mem_cons.1 h
    rw [pieces, hc, if_neg Bool.false_ne_true, ih hl]

/-- A piece ends at the first separator. -/
theorem pieces_append (h : ∀ c ∈ l, p c = false) (hc : p c = true) :
    pieces p (l ++ c :: l') = l :: pieces p l' := by
  induction l with
  | nil => rw [List.nil_append, pieces, if_pos hc]
  | cons d l ih =>
    obtain ⟨hd, hl⟩ := List.forall_mem_cons.1 h
    rw [List.cons_append, pieces, hd, if_neg Bool.false_ne_true, ih hl]

/-- A text is one piece, or it has a first separator. -/
theorem pieces_cases (p : Char → Bool) (l : List Char) : (∀ c ∈ l, p c = false) ∨
    ∃ w c rest, l = w ++ c :: rest ∧ (∀ c ∈ w, p c = false) ∧ p c = true := by
  induction l with
  | nil => exact .inl fun _ h => absurd h List.not_mem_nil
  | cons d l ih =>
    cases hd : p d with
    | true => exact .inr ⟨[], d, l, rfl, fun _ h => absurd h List.not_mem_nil, hd⟩
    | false =>
      rcases ih with hl | ⟨w, c, rest, rfl, hw, hc⟩
      · exact .inl (List.forall_mem_cons.2 ⟨hd, hl⟩)
      · exact .inr ⟨d :: w, c, rest, rfl, List.forall_mem_cons.2 ⟨hd, hw⟩, hc⟩

theorem pieces_eq_splitOnP (p : Char → Bool) (l : List Char) : pieces p l = l.splitOnP p := by
  induction l with
  | nil => rfl
  | cons c l ih =>
    obtain ⟨w, ws, hsplit⟩ := List.exists_cons_of_ne_nil (List.splitOnP_ne_nil p l)
    rw [pieces, List.splitOnP_cons_eq_if_modifyHead, ih, hsplit]
    rfl

theorem pieces_ne_nil (p : Char → Bool) (l : List Char) : pieces p l ≠ [] := by
  rw [pieces_eq_splitOnP]
  exact List.splitOnP_ne_nil p l

end Pieces

/-- The text consists of the pieces, with the separator between them. -/
structure Joined (c : Char) (ps : List (List Char)) (text : List Char) : Prop where
  ne_nil : ps ≠ []
  not_mem : ∀ w ∈ ps, c ∉ w
  eq : text = [c].intercalate ps

theorem not_mem_of_mem_pieces (hw : w ∈ pieces (· == c) l) : c ∉ w := by
  induction l generalizing w with
  | nil =>
    rw [List.mem_singleton.1 hw]
    exact List.not_mem_nil
  | cons d l ih =>
    rw [pieces_eq_splitOnP, List.splitOnP_cons_eq_if_modifyHead, ← pieces_eq_splitOnP] at hw
    split at hw
    · rcases List.mem_cons.1 hw with rfl | hw
      · exact List.not_mem_nil
      · exact ih hw
    · rename_i hd
      rw [beq_iff_eq] at hd
      cases hpieces : pieces (· == c) l with
      | nil =>
        rw [hpieces] at hw
        exact absurd hw List.not_mem_nil
      | cons v ps =>
        rw [hpieces] at ih hw
        rcases List.mem_cons.1 hw with rfl | hw
        · rw [List.mem_cons, not_or]
          exact ⟨fun heq => hd heq.symm, ih List.mem_cons_self⟩
        · exact ih (List.mem_cons_of_mem v hw)

/-- **The pieces of a text are what it joins by separators.** -/
theorem pieces_eq_iff {ps : List (List Char)} : pieces (· == c) l = ps ↔ Joined c ps l := by
  have hsplit : pieces (· == c) l = l.splitOn c := pieces_eq_splitOnP _ l
  refine ⟨?_, fun h => ?_⟩
  · rintro rfl
    refine ⟨pieces_ne_nil _ l, fun w hw => not_mem_of_mem_pieces hw, ?_⟩
    rw [hsplit, List.intercalate_splitOn]
  · rw [hsplit, h.eq, List.splitOn_intercalate c h.not_mem h.ne_nil]

/-- Lines that are joined by line ends are the lines of the text, if no line ends early and none is
empty. -/
theorem lines_intercalate {rows : List (List Char)} (hrows : rows ≠ [])
    (hne : ∀ row ∈ rows, row ≠ []) (hend : ∀ row ∈ rows, '\n' ∉ row) (hreturn : ∀ row ∈ rows, '\r' ∉ row) :
    lines (['\n'].intercalate rows) = rows := by
  have hall : pieces (· == '\n') (['\n'].intercalate rows) = rows :=
    pieces_eq_iff.2 ⟨hrows, hend, rfl⟩
  have hkeep : rows.dropLast.map withoutReturn = rows.dropLast := by
    refine (List.map_congr_left fun row hrow => ?_).trans (List.map_id _)
    rw [withoutReturn, if_neg, id_eq]
    intro hlast
    exact hreturn row (List.mem_of_mem_dropLast hrow) (List.mem_of_getLast? hlast)
  obtain ⟨last, hlast⟩ : ∃ last, rows.getLast? = some last :=
    ⟨_, List.getLast?_eq_some_getLast hrows⟩
  have hlast' : ¬last.isEmpty = true := fun hempty =>
    hne last (List.mem_of_getLast? hlast) (List.isEmpty_iff.1 hempty)
  simp only [lines, hall, hkeep, hlast, Option.getD_some, if_neg hlast']
  exact List.dropLast_append_getLast? last hlast

/-! ## Words -/

/-- Blanks in front of a text add no words. -/
theorem words_append (hgap : Blank gap) : words (gap ++ l) = words l := by
  induction gap with
  | nil => rfl
  | cons c gap ih =>
    obtain ⟨hc, hgap⟩ := List.forall_mem_cons.1 hgap
    rw [List.cons_append, words, pieces, if_pos hc, List.filter_cons_of_neg (by simp)]
    exact ih hgap

/-- A word ends at the first blank behind it, or with the text. -/
theorem words_solid_append (hw : Solid w) (hne : w ≠ [])
    (hrest : ∀ c ∈ l.head?, isBlank c = true) : words (w ++ l) = w :: words l := by
  cases l with
  | nil =>
    rw [List.append_nil, words, pieces_eq_singleton hw]
    exact List.filter_cons_of_pos (by simp [hne])
  | cons c l =>
    have hc := hrest c rfl
    have hgap : Blank [c] := List.forall_mem_singleton.2 hc
    rw [words, pieces_append hw hc, List.filter_cons_of_pos (by simp [hne])]
    exact congrArg (w :: ·) (words_append hgap).symm

/-- A text that begins with a character that is not blank begins with a word. -/
theorem exists_word (hflush : Flush l) (hne : l ≠ []) : ∃ w rest, Solid w ∧ w ≠ [] ∧
    l = w ++ rest ∧ ∀ c ∈ rest.head?, isBlank c = true := by
  rcases pieces_cases isBlank l with hsolid | ⟨v, c, rest, rfl, hsolid, hc⟩
  · exact ⟨l, [], hsolid, hne, (List.append_nil l).symm, fun _ h => (nomatch h)⟩
  · refine ⟨v, c :: rest, hsolid, fun hnil => ?_, rfl, fun d hd => Option.some_inj.1 hd ▸ hc⟩
    rw [hnil, List.nil_append, flush_cons_iff, hc] at hflush
    cases hflush

theorem words_eq_nil_iff : words l = [] ↔ Blank l := by
  refine ⟨fun h => ?_, fun h => ?_⟩
  · obtain ⟨gap, hgap, hl⟩ := exists_trimmedFront l
    by_cases hne : trimmedFront l = []
    · rw [hl, hne, List.append_nil]
      exact hgap
    · obtain ⟨w, rest, hw, hw', hl', hrest⟩ := exists_word (flush_trimmedFront l) hne
      rw [hl, words_append hgap, hl', words_solid_append hw hw' hrest] at h
      cases h
  · rw [← List.append_nil l, words_append h]
    rfl

/-- The first word of a text is behind some blanks, and a blank is behind it if anything is. -/
theorem words_eq_cons_iff {ws : List (List Char)} : words l = w :: ws ↔
    ∃ gap rest, Blank gap ∧ Solid w ∧ w ≠ [] ∧ l = gap ++ w ++ rest ∧
      (∀ c ∈ rest.head?, isBlank c = true) ∧ words rest = ws := by
  refine ⟨fun h => ?_, ?_⟩
  · obtain ⟨gap, hgap, hl⟩ := exists_trimmedFront l
    have hne : trimmedFront l ≠ [] := fun hnil => by
      rw [hl, words_append hgap, hnil] at h
      cases h
    obtain ⟨v, rest, hv, hv', hl', hrest⟩ := exists_word (flush_trimmedFront l) hne
    rw [hl, words_append hgap, hl', words_solid_append hv hv' hrest] at h
    obtain ⟨rfl, rfl⟩ := List.cons.inj h
    exact ⟨gap, rest, hgap, hv, hv', by rw [List.append_assoc, ← hl', ← hl], hrest, rfl⟩
  · rintro ⟨gap, rest, hgap, hw, hne, rfl, hrest, rfl⟩
    rw [List.append_assoc, words_append hgap, words_solid_append hw hne hrest]

theorem words_eq_singleton_iff : words l = [w] ↔ ∃ front back, Blank front ∧ Blank back ∧
    Solid w ∧ w ≠ [] ∧ l = front ++ w ++ back := by
  rw [words_eq_cons_iff]
  refine ⟨?_, ?_⟩
  · rintro ⟨front, back, hfront, hw, hne, hl, _, hback⟩
    exact ⟨front, back, hfront, words_eq_nil_iff.1 hback, hw, hne, hl⟩
  · rintro ⟨front, back, hfront, hback, hw, hne, hl⟩
    exact ⟨front, back, hfront, hw, hne, hl, fun c hc => hback c (List.mem_of_mem_head? hc),
      words_eq_nil_iff.2 hback⟩

theorem words_eq_pair_iff : words l = [v, w] ↔ ∃ front gap back, Blank front ∧ Blank gap ∧
    gap ≠ [] ∧ Blank back ∧ Solid v ∧ v ≠ [] ∧ Solid w ∧ w ≠ [] ∧
      l = front ++ v ++ gap ++ w ++ back := by
  rw [words_eq_cons_iff]
  refine ⟨?_, ?_⟩
  · rintro ⟨front, rest, hfront, hv, hne, rfl, hrest, hwords⟩
    obtain ⟨gap, back, hgap, hback, hw, hne', rfl⟩ := words_eq_singleton_iff.1 hwords
    refine ⟨front, gap, back, hfront, hgap, fun hnil => ?_, hback, hv, hne, hw, hne', by simp⟩
    -- without a gap the second word would go on where the first one ends
    obtain ⟨c, w, rfl⟩ := List.exists_cons_of_ne_nil hne'
    subst hnil
    exact absurd (hrest c rfl) (Bool.eq_false_iff.1 (hw c List.mem_cons_self))
  · rintro ⟨front, gap, back, hfront, hgap, hgap', hback, hv, hne, hw, hne', rfl⟩
    refine ⟨front, gap ++ w ++ back, hfront, hv, hne, by simp, fun c hc => hgap c ?_,
      words_eq_singleton_iff.2 ⟨gap, back, hgap, hback, hw, hne', rfl⟩⟩
    obtain ⟨d, gap, rfl⟩ := List.exists_cons_of_ne_nil hgap'
    exact Option.some_inj.1 hc ▸ List.mem_cons_self

/-- The words stand in the text, with blanks between them. -/
inductive Spaced : List (List Char) → List Char → Prop where
  /-- There are blanks only. -/
  | nil {gap : List Char} : Blank gap → Spaced [] gap
  /-- A word has blanks in front, and a blank behind it if anything is behind it. -/
  | cons {gap w rest : List Char} {ws : List (List Char)} : Blank gap → Solid w → w ≠ [] →
      (∀ c ∈ rest.head?, isBlank c = true) → Spaced ws rest → Spaced (w :: ws) (gap ++ w ++ rest)

/-- **The words of a text are what stands between its blanks.** -/
theorem words_eq_iff {ws : List (List Char)} : words l = ws ↔ Spaced ws l := by
  induction ws generalizing l with
  | nil =>
    rw [words_eq_nil_iff]
    refine ⟨fun h => .nil h, fun h => ?_⟩
    cases h with
    | nil h => exact h
  | cons w ws ih =>
    rw [words_eq_cons_iff]
    refine ⟨?_, fun h => ?_⟩
    · rintro ⟨gap, rest, hgap, hw, hne, rfl, hrest, hwords⟩
      exact .cons hgap hw hne hrest (ih.1 hwords)
    · cases h with
      | cons hgap hw hne hrest hspaced =>
        exact ⟨_, _, hgap, hw, hne, rfl, hrest, ih.2 hspaced⟩

/-- Words are pieces of the text without blanks, and none of them is empty. -/
theorem solid_of_mem_words (hw : w ∈ words l) : Solid w ∧ w ≠ [] ∧ w ⊆ l := by
  have hspaced : Spaced (words l) l := words_eq_iff.1 rfl
  generalize words l = ws at hw hspaced
  induction hspaced with
  | nil _ => exact absurd hw List.not_mem_nil
  | cons _ hsolid hne _ _ ih =>
    rcases List.mem_cons.1 hw with rfl | hw
    · refine ⟨hsolid, hne, fun c hc => ?_⟩
      rw [List.mem_append, List.mem_append]
      exact .inl (.inr hc)
    · obtain ⟨hsolid', hne', hsub⟩ := ih hw
      exact ⟨hsolid', hne', fun c hc => List.mem_append_right _ (hsub hc)⟩

/-- Blanks behind a text add no words. -/
theorem words_append_blank (hgap : Blank gap) : words (l ++ gap) = words l := by
  have hspaced : Spaced (words l) l := words_eq_iff.1 rfl
  rw [words_eq_iff]
  generalize words l = ws at hspaced
  induction hspaced with
  | nil hfront => exact .nil fun c hc => (List.mem_append.1 hc).elim (hfront c) (hgap c)
  | cons hfront hw hne hrest _ ih =>
    rename_i rest _ _
    rw [List.append_assoc]
    refine .cons hfront hw hne (fun c hc => ?_) ih
    cases rest with
    | nil => exact hgap c (List.mem_of_mem_head? hc)
    | cons d rest => exact hrest c hc

/-- Words are found again where they are joined by blanks. -/
theorem words_intercalate {ws : List (List Char)} (h : ∀ w ∈ ws, Solid w ∧ w ≠ []) :
    words ([' '].intercalate ws) = ws := by
  induction ws with
  | nil => rfl
  | cons w ws ih =>
    obtain ⟨⟨hw, hne⟩, hws⟩ := List.forall_mem_cons.1 h
    cases ws with
    | nil =>
      rw [List.intercalate_singleton, words_eq_singleton_iff]
      exact ⟨[], [], blank_nil, blank_nil, hw, hne, (List.append_nil w).symm⟩
    | cons v ws =>
      have hblank : Blank [' '] := List.forall_mem_singleton.2 (by decide)
      rw [List.intercalate_cons_cons, List.append_assoc, words_solid_append hw hne,
        words_append hblank, ih hws]
      intro c hc
      cases hc
      decide

/-! ## Arrows -/

/-- The text has an arrow in it. -/
def HasArrow (l : List Char) : Prop := ['-', '>'] <:+: l

instance (l : List Char) : Decidable (HasArrow l) :=
  inferInstanceAs (Decidable (['-', '>'] <:+: l))

theorem hasArrow_cons_iff :
    HasArrow (c :: l) ↔ (c = '-' ∧ ∃ after, l = '>' :: after) ∨ HasArrow l := by
  rw [HasArrow, List.infix_cons_iff, List.cons_prefix_cons, eq_comm]
  refine or_congr_left (and_congr_right fun _ => ⟨?_, ?_⟩)
  · rintro ⟨after, rfl⟩
    exact ⟨after, rfl⟩
  · rintro ⟨after, rfl⟩
    exact ⟨after, rfl⟩

theorem not_hasArrow_nil : ¬HasArrow [] := by
  intro h
  cases List.infix_nil.1 h

theorem Blank.not_hasArrow (h : Blank l) : ¬HasArrow l := fun harrow =>
  absurd (h '-' (harrow.subset List.mem_cons_self)) (by decide)

theorem cutAtArrow_append (h : ¬HasArrow v) : cutAtArrow (v ++ '-' :: '>' :: w) = some (v, w) := by
  induction v with
  | nil => rfl
  | cons c v ih =>
    obtain ⟨hfront, hv⟩ := not_or.1 (mt hasArrow_cons_iff.2 h)
    rw [List.cons_append, cutAtArrow, ih hv]
    · rfl
    · -- the arrow does not begin with the last character of `v`
      rintro after rfl hafter
      cases v with
      | nil => cases (List.cons.inj hafter).1
      | cons d v => exact hfront ⟨rfl, v, by rw [(List.cons.inj hafter).1]⟩

theorem eq_append_of_cutAtArrow (h : cutAtArrow l = some (v, w)) :
    l = v ++ '-' :: '>' :: w ∧ ¬HasArrow v := by
  fun_induction cutAtArrow l generalizing v with
  | case1 => cases h
  | case2 after =>
    cases h
    exact ⟨rfl, not_hasArrow_nil⟩
  | case3 c l hne ih =>
    obtain ⟨⟨before, after⟩, hcut, heq⟩ := Option.map_eq_some_iff.1 h
    cases heq
    obtain ⟨rfl, hbefore⟩ := ih hcut
    refine ⟨rfl, fun harrow => ?_⟩
    rcases hasArrow_cons_iff.1 harrow with ⟨rfl, rest, rfl⟩ | harrow
    · exact hne _ rfl rfl
    · exact hbefore harrow

theorem not_hasArrow_append (h : ¬HasArrow w) (hgap : Blank gap) : ¬HasArrow (w ++ gap) := by
  induction w with
  | nil => exact hgap.not_hasArrow
  | cons c w ih =>
    obtain ⟨hfront, hw⟩ := not_or.1 (mt hasArrow_cons_iff.2 h)
    rw [List.cons_append, hasArrow_cons_iff, not_or]
    refine ⟨?_, ih hw⟩
    rintro ⟨rfl, after, hafter⟩
    cases w with
    | nil =>
      rw [List.nil_append] at hafter
      exact absurd (hgap '>' (hafter ▸ List.mem_cons_self)) (by decide)
    | cons d w => exact hfront ⟨rfl, w, by rw [(List.cons.inj hafter).1]⟩

/-- **A text is cut at its first arrow.** -/
theorem cutAtArrow_eq_some_iff :
    cutAtArrow l = some (v, w) ↔ l = v ++ '-' :: '>' :: w ∧ ¬HasArrow v :=
  ⟨eq_append_of_cutAtArrow, fun ⟨hl, hv⟩ => hl ▸ cutAtArrow_append hv⟩

theorem cutAtArrow_eq_none_iff : cutAtArrow l = none ↔ ¬HasArrow l := by
  fun_induction cutAtArrow l with
  | case1 => exact iff_of_true rfl not_hasArrow_nil
  | case2 after =>
    exact iff_of_false nofun fun h => h (hasArrow_cons_iff.2 (.inl ⟨rfl, after, rfl⟩))
  | case3 c l hne ih =>
    rw [Option.map_eq_none_iff, ih, hasArrow_cons_iff, not_or, and_iff_right]
    rintro ⟨rfl, after, rfl⟩
    exact hne after rfl rfl

end Text

end Automata
