import Automata.Words
import Automata.Proofs.WordOrder
import Mathlib

/-!
# The enumeration of words leaves nothing out

Where languages are compared on all short words, the comparison is worth no more than the
enumeration of these words.  It is put together from products: for each length the alphabet is taken
as many times, and one symbol is chosen from each copy.  What a product has to do for this is said
here, and it turns out that nothing is skipped or repeated, across all lengths.

## What is here

* `LexicographicProduct` — what is asked of a product of lists, and `lexicographicProduct_choices` —
  the obvious product does it.
* `LexicographicProduct.replicate_eq` — all such products of one alphabet list the words of a length
  in one way.
* `wordsOfLength_ascending`, `wordsUpTo_pairwise` — words of one length ascend, and shorter words
  come before longer ones.
* `length_wordsUpTo` — how many words there are.
* `enumeration_of_words` — **the words that are not too long are enumerated in their order, each of
  them once.**
-/

set_option autoImplicit false

namespace Automata

variable {product : List (List Char) → List (List Char)} {alphabet : FinSet Char} {n : Nat}

/-! ## Products of lists -/

/-- What is asked of a product of lists.  It lists the ways to choose one entry from each of the
lists, and it does so in lexicographic order if each of them ascends.  Of the product of no lists
nothing is asked. -/
structure LexicographicProduct (product : List (List Char) → List (List Char)) : Prop where
  /-- The members are the choices. -/
  mem_iff : ∀ lists w, lists ≠ [] → (w ∈ product lists ↔ List.Forall₂ (· ∈ ·) w lists)
  /-- They are in lexicographic order. -/
  ascending : ∀ lists, lists ≠ [] → (∀ l ∈ lists, l.Pairwise (· < ·)) →
    (product lists).Pairwise (· < ·)

/-- The words up to a length as they are put together from products: first the empty one, then for
each length the choices from so many copies of the alphabet. -/
def wordsByProducts (product : List (List Char) → List (List Char)) (alphabet : FinSet Char)
    (n : Nat) : List (List Char) :=
  [] :: (List.range' 1 n).flatMap fun k => product (List.replicate k alphabet.toList)

/-- The ways to choose one entry from each list: those that begin with the first entry of the first
list, then those that begin with the second, and so on. -/
def choices : List (List Char) → List (List Char)
  | [] => [[]]
  | l :: lists => l.flatMap fun a => (choices lists).map (a :: ·)

theorem mem_choices {lists : List (List Char)} {w : List Char} :
    w ∈ choices lists ↔ List.Forall₂ (· ∈ ·) w lists := by
  induction lists generalizing w with
  | nil => simp [choices]
  | cons l lists ih => simp [choices, ih, List.forall₂_cons_right_iff, eq_comm]

/-- Words that begin with each of some ascending symbols ascend if what follows does. -/
theorem pairwise_flatMap_cons {l : List Char} {words : List (List Char)} (hl : l.Pairwise (· < ·))
    (hwords : words.Pairwise (· < ·)) :
    (l.flatMap fun a => words.map (a :: ·)).Pairwise (· < ·) := by
  rw [List.pairwise_flatMap]
  constructor
  · intro a _
    exact List.pairwise_map.2 (hwords.imp fun h => List.Lex.cons h)
  · refine hl.imp fun {a b} hab v hv w hw => ?_
    obtain ⟨v, _, rfl⟩ := List.mem_map.1 hv
    obtain ⟨w, _, rfl⟩ := List.mem_map.1 hw
    exact List.Lex.rel hab

theorem choices_ascending {lists : List (List Char)} (h : ∀ l ∈ lists, l.Pairwise (· < ·)) :
    (choices lists).Pairwise (· < ·) := by
  induction lists with
  | nil => simp [choices]
  | cons l lists ih =>
    rw [List.forall_mem_cons] at h
    exact pairwise_flatMap_cons h.1 (ih h.2)

theorem lexicographicProduct_choices : LexicographicProduct choices where
  mem_iff _ _ _ := mem_choices
  ascending _ _ := choices_ascending

/-! ## Words of one length -/

theorem wordsOfLength_ascending (alphabet : FinSet Char) (n : Nat) :
    (wordsOfLength alphabet n).Pairwise (· < ·) := by
  induction n with
  | zero => simp [wordsOfLength]
  | succ n ih => exact pairwise_flatMap_cons alphabet.symbols_ascending ih

/-- There is one word for each choice of `n` symbols. -/
theorem length_wordsOfLength (alphabet : FinSet Char) (n : Nat) :
    (wordsOfLength alphabet n).length = alphabet.size ^ n := by
  induction n with
  | zero => simp [wordsOfLength]
  | succ n ih => simp [wordsOfLength, ih, FinSet.size, pow_succ']

/-- To choose from copies of one list is to take as many of its entries. -/
theorem forall₂_mem_replicate {l w : List Char} :
    List.Forall₂ (· ∈ ·) w (List.replicate n l) ↔ w.length = n ∧ ∀ a ∈ w, a ∈ l := by
  induction n generalizing w with
  | zero =>
    simp only [List.replicate_zero, List.forall₂_nil_right_iff, List.length_eq_zero_iff]
    exact (and_iff_left_of_imp fun hw => by simp [hw]).symm
  | succ n ih =>
    cases w with
    | nil => simp [List.replicate_succ]
    | cons a w => simp [List.replicate_succ, ih, and_left_comm]

/-- **Every product lists the words of a length in the same way.** -/
theorem LexicographicProduct.replicate_eq (h : LexicographicProduct product)
    (alphabet : FinSet Char) (hn : n ≠ 0) :
    product (List.replicate n alphabet.toList) = wordsOfLength alphabet n := by
  have hne : List.replicate n alphabet.toList ≠ [] := by simp [hn]
  refine List.Pairwise.eq_of_mem_iff (r := (· < ·)) ?_ (wordsOfLength_ascending alphabet n) ?_
  · refine h.ascending _ hne fun l hl => ?_
    rw [List.eq_of_mem_replicate hl]
    exact alphabet.symbols_ascending
  · intro w
    simp [h.mem_iff _ w hne, forall₂_mem_replicate, mem_wordsOfLength]

/-! ## All lengths -/

theorem wordsByProducts_eq (h : LexicographicProduct product) (alphabet : FinSet Char) (n : Nat) :
    wordsByProducts product alphabet n = wordsUpTo alphabet n := by
  have hproducts : ∀ k ∈ List.range' 1 n,
      product (List.replicate k alphabet.toList) = wordsOfLength alphabet k := by
    intro k hk
    rw [List.mem_range'_1] at hk
    exact h.replicate_eq alphabet (by omega)
  rw [wordsByProducts, List.flatMap_congr hproducts, wordsUpTo, List.range_eq_range',
    List.range'_succ, List.flatMap_cons]
  rfl

/-- **The words stand in their order**, so that none is repeated. -/
theorem wordsUpTo_pairwise (alphabet : FinSet Char) (n : Nat) :
    (wordsUpTo alphabet n).Pairwise Precedes := by
  rw [wordsUpTo, List.pairwise_flatMap]
  constructor
  · intro k _
    refine (wordsOfLength_ascending alphabet k).imp_of_mem fun {v w} hv hw hlt => ?_
    have hlen : v.length = w.length :=
      (mem_wordsOfLength.1 hv).1.trans (mem_wordsOfLength.1 hw).1.symm
    exact .of_lex hlen hlt
  · refine List.pairwise_lt_range.imp fun {j k} hjk v hv w hw => .of_length_lt ?_
    rwa [(mem_wordsOfLength.1 hv).1, (mem_wordsOfLength.1 hw).1]

theorem length_wordsUpTo (alphabet : FinSet Char) (n : Nat) :
    (wordsUpTo alphabet n).length = ∑ i ∈ Finset.range (n + 1), alphabet.size ^ i := by
  simp only [wordsUpTo, List.length_flatMap, length_wordsOfLength]
  rw [← List.toFinset_range, List.sum_toFinset _ List.nodup_range]

/-- Without symbols there is no word but the empty one. -/
theorem wordsUpTo_empty (n : Nat) : wordsUpTo ∅ n = [[]] := by
  simp [wordsUpTo, List.range_succ_eq_map, wordsOfLength]

/-- **The words that are not too long are enumerated in their order, each of them once.**  However
the products are taken, the enumeration ascends by length and then lexicographically by code points,
and it holds a word exactly if all of its symbols are in the alphabet and it is not too long.  There
are as many words as choices of symbols, for all lengths together.  Without symbols there is the
empty word alone. -/
theorem enumeration_of_words (hproduct : LexicographicProduct product) (alphabet : FinSet Char)
    (n : Nat) :
    wordsByProducts product alphabet n = wordsUpTo alphabet n ∧
      (wordsUpTo alphabet n).Pairwise
        (fun v w => v.length < w.length ∨ v.length = w.length ∧ List.Lex (· < ·) v w) ∧
      (∀ w, w ∈ wordsUpTo alphabet n ↔ (∀ a ∈ w, a ∈ alphabet) ∧ w.length ≤ n) ∧
      (wordsUpTo alphabet n).length = ∑ i ∈ Finset.range (n + 1), alphabet.size ^ i ∧
      wordsUpTo ∅ n = [[]] := by
  refine ⟨wordsByProducts_eq hproduct alphabet n, ?_, fun w => ?_, length_wordsUpTo alphabet n,
    wordsUpTo_empty n⟩
  · exact (wordsUpTo_pairwise alphabet n).imp List.shortlex_def.1
  · rw [mem_wordsUpTo, and_comm]

/-- Three symbols, taken by the obvious product. -/
theorem threeSymbols_enumeration_of_words : LexicographicProduct choices ∧
    wordsByProducts choices (FinSet.ofList ['x', 'y', 'z']) 3
      = wordsUpTo (FinSet.ofList ['x', 'y', 'z']) 3 ∧
    (∀ w, w ∈ wordsUpTo (FinSet.ofList ['x', 'y', 'z']) 3 ↔
      (∀ a ∈ w, a ∈ FinSet.ofList ['x', 'y', 'z']) ∧ w.length ≤ 3) ∧
    (wordsUpTo (FinSet.ofList ['x', 'y', 'z']) 3).length = 1 + 3 + 9 + 27 := by
  obtain ⟨hproducts, _, hmem, hlen, _⟩ :=
    enumeration_of_words lexicographicProduct_choices (FinSet.ofList ['x', 'y', 'z']) 3
  exact ⟨lexicographicProduct_choices, hproducts, hmem, hlen⟩

end Automata
