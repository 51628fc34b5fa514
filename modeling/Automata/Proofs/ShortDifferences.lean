import Automata.Proofs.Comparison
import Automata.Proofs.Reachability
import Automata.Words
import Mathlib

/-!
# How long a least difference can be

Two automata that are run side by side can stand at as many pairings as the product of their sizes,
and yet the least word on which they differ is shorter than the sum of their sizes.  The reason is
an argument about languages.  From every state some language is accepted, and what is left of a
language after one symbol is again the language of a state, or nothing at all.  If languages are
looked at on short words only, some of them cannot be told apart.  Allowing words of one more symbol
tells further ones apart, or else no words do, however long they are.  So with every symbol the
number of languages that can be told apart grows until all of them are.

## What is here

* `WordSet.cut` — a language on short words, and `WordSet.Shifting` — finite sets of languages
  that hold what is left of each of them after one symbol.
* `WordSet.injOn_cut` — a length that tells no more languages apart than the length before it tells
  all of them apart, and `WordSet.le_card_cut` — until then their number grows.
* `WordSet.exists_short_difference` — **languages of such a set that differ do so on a word with
  fewer symbols than the set has members.**
* `DFA.languages` — the languages of the states of two automata and of the position without moves.
* `DFA.leastDifference?_bounded` — **the least difference is shorter than the sum of the sizes.**
-/

set_option autoImplicit false

namespace Automata

/-- A language: which words are in it. -/
abbrev WordSet := List Char → Bool

namespace WordSet

variable {L M : WordSet} {S : Finset WordSet} {k : Nat}

/-! ## Languages on short words -/

/-- The words of at most `k` symbols in the language. -/
def cut (k : Nat) (L : WordSet) : WordSet := fun w => decide (w.length ≤ k) && L w

/-- What follows the symbol in the words of the language. -/
def rest (L : WordSet) (a : Char) : WordSet := fun w => L (a :: w)

theorem cut_eq_iff : cut k L = cut k M ↔ ∀ w, w.length ≤ k → L w = M w := by
  rw [funext_iff]
  refine forall_congr' fun w => ?_
  by_cases hw : w.length ≤ k <;> simp [cut, hw]

/-- Cutting at a greater length first makes no difference. -/
theorem cut_cut {m : Nat} (h : k ≤ m) (L : WordSet) : cut k (cut m L) = cut k L := by
  refine cut_eq_iff.2 fun w hw => ?_
  simp [cut, Nat.le_trans hw h]

/-- Languages that agree on words of one symbol more leave rests that agree. -/
theorem cut_rest (h : cut (k + 1) L = cut (k + 1) M) (a : Char) :
    cut k (rest L a) = cut k (rest M a) :=
  cut_eq_iff.2 fun w hw => cut_eq_iff.1 h (a :: w) (Nat.succ_le_succ hw)

/-- What is left of any language of the set after one symbol is in the set. -/
def Shifting (S : Finset WordSet) : Prop := ∀ L ∈ S, ∀ a, rest L a ∈ S

/-- What is left after a word is in the set as well. -/
theorem Shifting.rest_mem (hS : Shifting S) (hL : L ∈ S) (v : List Char) :
    (fun w => L (v ++ w)) ∈ S := by
  induction v generalizing L with
  | nil => exact hL
  | cons a v ih => exact ih (hS L hL a)

/-! ## Counting the languages that can be told apart -/

section Counting

open scoped Classical

/-- **A length that tells no more languages apart than the length before it tells all of them
apart.** -/
theorem injOn_cut (hS : Shifting S) (hcard : (S.image (cut (k + 1))).card ≤ (S.image (cut k)).card) :
    Set.InjOn (cut k) S := by
  have himage : (S.image (cut (k + 1))).image (cut k) = S.image (cut k) := by
    rw [Finset.image_image]
    exact Finset.image_congr fun L _ => cut_cut (Nat.le_succ k) L
  have hinj := Finset.card_image_iff.1
    (Nat.le_antisymm Finset.card_image_le (himage.symm ▸ hcard))
  have hstep : ∀ L ∈ S, ∀ M ∈ S, cut k L = cut k M → cut (k + 1) L = cut (k + 1) M := by
    intro L hL M hM h
    refine hinj (Finset.mem_coe.2 (Finset.mem_image_of_mem _ hL))
      (Finset.mem_coe.2 (Finset.mem_image_of_mem _ hM)) ?_
    rw [cut_cut (Nat.le_succ k), cut_cut (Nat.le_succ k), h]
  intro L hL M hM h
  funext w
  -- one symbol of the word after the other, the rests of the languages agree on short words
  induction w generalizing L M with
  | nil => exact cut_eq_iff.1 h [] (Nat.zero_le k)
  | cons a w ih => exact ih (hS L hL a) (hS M hM a) (cut_rest (hstep L hL M hM h) a)

/-- **Until all languages can be told apart, every further symbol tells one more apart.** -/
theorem le_card_cut (hS : Shifting S) (hL : L ∈ S) (hM : M ∈ S) (hne : L ≠ M)
    (h : ¬Set.InjOn (cut k) S) : k + 2 ≤ (S.image (cut k)).card := by
  induction k with
  | zero =>
    obtain ⟨w, hw⟩ := Function.ne_iff.1 hne
    refine Finset.one_lt_card.2 ⟨_, Finset.mem_image_of_mem _ (hS.rest_mem hL w), _,
      Finset.mem_image_of_mem _ (hS.rest_mem hM w), fun heq => hw ?_⟩
    have hnil := cut_eq_iff.1 heq [] (Nat.le_refl 0)
    rwa [List.append_nil] at hnil
  | succ k ih =>
    have hk : ¬Set.InjOn (cut k) S := by
      refine fun hinj => h fun L' hL' M' hM' heq => hinj hL' hM' ?_
      rw [← cut_cut (Nat.le_succ k) L', heq, cut_cut (Nat.le_succ k)]
    have hlt := Nat.lt_of_not_le (mt (injOn_cut hS) hk)
    have hle := ih hk
    omega

/-- **Languages that differ do so on a word with fewer symbols than there are languages**, by at
least two. -/
theorem exists_short_difference (hS : Shifting S) (hL : L ∈ S) (hM : M ∈ S) (hne : L ≠ M) :
    ∃ w, w.length + 2 ≤ S.card ∧ L w ≠ M w := by
  have hcard : 2 ≤ S.card := Finset.one_lt_card.2 ⟨L, hL, M, hM, hne⟩
  have hinj : Set.InjOn (cut (S.card - 2)) S := by
    by_contra h
    have hle := le_card_cut hS hL hM hne h
    have hall : (S.image (cut (S.card - 2))).card = S.card :=
      Nat.le_antisymm Finset.card_image_le (by omega)
    exact h (Finset.card_image_iff.1 hall)
  by_contra hno
  refine hne (hinj hL hM (cut_eq_iff.2 fun w hw => ?_))
  by_contra hw'
  exact hno ⟨w, by omega, hw'⟩

end Counting

end WordSet

namespace DFA

variable {D E : DFA} {w : List Char}

open WordSet

/-! ## The languages of states -/

section Languages

open scoped Classical

/-- What is accepted from the states of an automaton. -/
noncomputable def stateLanguages (D : DFA) : Finset WordSet :=
  D.states.toList.toFinset.image fun q => D.future (some q)

/-- What is accepted from the states of two automata, and by a run that is stuck. -/
noncomputable def languages (D E : DFA) : Finset WordSet :=
  insert (D.future none) (D.stateLanguages ∪ E.stateLanguages)

theorem future_mem_stateLanguages {q : State} (hq : q ∈ D.states) :
    D.future (some q) ∈ D.stateLanguages :=
  Finset.mem_image_of_mem _ (List.mem_toFinset.2 hq)

theorem card_stateLanguages_le (D : DFA) : D.stateLanguages.card ≤ D.size :=
  Finset.card_image_le.trans (List.toFinset_card_le _)

theorem card_languages_le (D E : DFA) : (languages D E).card ≤ D.size + E.size + 1 := by
  have hD := card_stateLanguages_le D
  have hE := card_stateLanguages_le E
  have hunion := Finset.card_union_le D.stateLanguages E.stateLanguages
  have hinsert := Finset.card_insert_le (D.future none) (D.stateLanguages ∪ E.stateLanguages)
  rw [languages]
  omega

theorem mem_languages {L : WordSet} : L ∈ languages D E ↔
    L = (fun _ => false) ∨ L ∈ D.stateLanguages ∨ L ∈ E.stateLanguages := by
  have hnone : D.future none = fun _ => false := funext D.future_none
  rw [languages, Finset.mem_insert, Finset.mem_union, hnone]

/-- What is left of the language of a state is the language of the next state, or nothing. -/
theorem rest_mem_stateLanguages (hD : D.WellFormed) {L : WordSet} (hL : L ∈ D.stateLanguages)
    (a : Char) : rest L a = (fun _ => false) ∨ rest L a ∈ D.stateLanguages := by
  obtain ⟨q, _, rfl⟩ := Finset.mem_image.1 hL
  have hrest : rest (D.future (some q)) a = D.future (D.next? q a) := rfl
  rw [hrest]
  cases hp : D.next? q a with
  | none => exact .inl (funext D.future_none)
  | some p => exact .inr (future_mem_stateLanguages (hD.target_mem _ (next?_eq_some_iff.1 hp)))

theorem shifting_languages (hD : D.WellFormed) (hE : E.WellFormed) :
    Shifting (languages D E) := by
  intro L hL a
  rw [mem_languages] at hL ⊢
  rcases hL with rfl | hL | hL
  · exact .inl rfl
  · exact (rest_mem_stateLanguages hD hL a).imp_right .inl
  · exact (rest_mem_stateLanguages hE hL a).imp_right .inr

/-- **Automata that differ do so on a word that is shorter than the sum of their sizes.** -/
theorem exists_short_difference (hD : D.WellFormed) (hE : E.WellFormed)
    (h : D.accepts w ≠ E.accepts w) : ∃ v, v.length + 1 ≤ D.size + E.size ∧
      D.accepts v ≠ E.accepts v := by
  simp only [accepts_eq] at h ⊢
  obtain ⟨v, hlen, hv⟩ := WordSet.exists_short_difference (shifting_languages hD hE)
    (mem_languages.2 (.inr (.inl (future_mem_stateLanguages hD.start_mem))))
    (mem_languages.2 (.inr (.inr (future_mem_stateLanguages hE.start_mem))))
    (Function.ne_iff.2 ⟨w, h⟩)
  have hcard := card_languages_le D E
  exact ⟨v, by omega, hv⟩

end Languages

/-! ## The least difference -/

/-- Only symbols of the alphabet can be read. -/
theorem mem_alphabet_of_accepts (hD : D.WellFormed) (h : D.accepts w = true) {a : Char}
    (ha : a ∈ w) : a ∈ D.alphabet := by
  obtain ⟨p, hpath, _⟩ := accepts_iff.1 h
  exact hpath.mem_alphabet hD ha

/-- The words on which automata differ consist of the symbols of both. -/
theorem mem_union_of_differs (hD : D.WellFormed) (hE : E.WellFormed)
    (h : D.accepts w ≠ E.accepts w) {a : Char} (ha : a ∈ w) :
    a ∈ D.alphabet.union E.alphabet := by
  rw [FinSet.mem_union]
  cases hw : D.accepts w with
  | true => exact .inl (mem_alphabet_of_accepts hD hw ha)
  | false =>
    rw [hw] at h
    exact .inr (mem_alphabet_of_accepts hE (Bool.eq_true_of_not_eq_false h.symm) ha)

theorem length_le_of_eq_some (hD : D.WellFormed) (hE : E.WellFormed)
    (h : leastDifference? D E = some w) : w.length + 1 ≤ D.size + E.size := by
  have hfirst := firstDifference_of_eq_some hD hE h
  obtain ⟨v, hlen, hv⟩ := exists_short_difference hD hE hfirst.differs
  have hle : w.length ≤ v.length := by
    rcases hfirst.least v hv with rfl | hlt
    · exact Nat.le_refl _
    · exact hlt.length_le
  omega

/-- **The least difference is shorter than the sum of the sizes.**  So automata accept the same
tapes as soon as they agree on the words of the symbols of both that are no longer than that. -/
theorem leastDifference?_bounded (hD : D.WellFormed) (hE : E.WellFormed) :
    (∀ w, leastDifference? D E = some w → w.length ≤ D.size + E.size - 1) ∧
      ((∀ w ∈ wordsUpTo (D.alphabet.union E.alphabet) (D.size + E.size - 1),
        D.accepts w = E.accepts w) ↔ isEquivalent D E = true) := by
  have hbound : ∀ w, leastDifference? D E = some w → w.length ≤ D.size + E.size - 1 :=
    fun w hw => Nat.le_sub_one_of_lt (length_le_of_eq_some hD hE hw)
  refine ⟨hbound, fun hall => ?_, fun hequiv w _ => ?_⟩
  · rw [isEquivalent, Option.isNone_iff_eq_none, Option.eq_none_iff_forall_ne_some]
    intro w hw
    have hdiffers := (firstDifference_of_eq_some hD hE hw).differs
    exact hdiffers (hall w (mem_wordsUpTo.2
      ⟨hbound w hw, fun a ha => mem_union_of_differs hD hE hdiffers ha⟩))
  · rw [isEquivalent, Option.isNone_iff_eq_none] at hequiv
    exact (leastDifference?_eq_none_iff hD hE).1 hequiv w

/-- Reads `a` any number of times. -/
def endless : DFA :=
  let moves := FunctionalRelation.ofList [⟨"p", 'a', "p"⟩]
  { states := FinSet.ofList ["p"]
    alphabet := FinSet.ofList ['a']
    start := "p"
    finals := FinSet.ofList ["p"]
    edges := moves.edges
    functional := moves.functional }

/-- Reads `a` at most once. -/
def atMostOnce : DFA :=
  let moves := FunctionalRelation.ofList [⟨"p", 'a', "q"⟩]
  { states := FinSet.ofList ["p", "q"]
    alphabet := FinSet.ofList ['a']
    start := "p"
    finals := FinSet.ofList ["p", "q"]
    edges := moves.edges
    functional := moves.functional }

/-- The word is as long as it can be. -/
theorem atMostOnce_leastDifference_bounded : endless.WellFormed ∧ atMostOnce.WellFormed ∧
    (leastDifference? endless atMostOnce = some ['a', 'a'] ∧
      ['a', 'a'].length ≤ endless.size + atMostOnce.size - 1) ∧
    ((∀ w ∈ wordsUpTo (endless.alphabet.union atMostOnce.alphabet)
        (endless.size + atMostOnce.size - 1), endless.accepts w = atMostOnce.accepts w) ↔
      isEquivalent endless atMostOnce = true) := by
  have hendless : endless.WellFormed := by decide
  have honce : atMostOnce.WellFormed := by decide
  have hword : leastDifference? endless atMostOnce = some ['a', 'a'] := by cbv
  obtain ⟨hlength, hwords⟩ := leastDifference?_bounded hendless honce
  exact ⟨hendless, honce, ⟨hword, hlength _ hword⟩, hwords⟩

end DFA

end Automata
