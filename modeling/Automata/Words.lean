import Automata.FinSet

/-!
# Enumerating words

All words over an alphabet up to a length, shorter words first and words of one length in
lexicographic order.

## What is here

* `wordsOfLength`, `wordsUpTo` — the enumeration, and `mem_wordsUpTo` — which words are in it.
* `firstWords` — its beginning, without the rest; `firstWords_eq` says that it is just that.
-/

set_option autoImplicit false

namespace Automata

/-- The words of `n` symbols, in lexicographic order. -/
def wordsOfLength (alphabet : FinSet Char) : Nat → List (List Char)
  | 0 => [[]]
  | n + 1 => alphabet.toList.flatMap fun a => (wordsOfLength alphabet n).map (a :: ·)

/-- The words of at most `n` symbols, by length and then in lexicographic order. -/
def wordsUpTo (alphabet : FinSet Char) (n : Nat) : List (List Char) :=
  (List.range (n + 1)).flatMap (wordsOfLength alphabet)

theorem mem_wordsOfLength {alphabet : FinSet Char} {n : Nat} {w : List Char} :
    w ∈ wordsOfLength alphabet n ↔ w.length = n ∧ ∀ a ∈ w, a ∈ alphabet := by
  induction n generalizing w with
  | zero => cases w <;> simp [wordsOfLength]
  | succ n ih => cases w <;> simp [wordsOfLength, ih, and_left_comm]

/-- The words are those of the symbols that are not too long. -/
theorem mem_wordsUpTo {alphabet : FinSet Char} {n : Nat} {w : List Char} :
    w ∈ wordsUpTo alphabet n ↔ w.length ≤ n ∧ ∀ a ∈ w, a ∈ alphabet := by
  simp only [wordsUpTo, List.mem_flatMap, List.mem_range, mem_wordsOfLength]
  constructor
  · rintro ⟨k, hk, hlen, hw⟩
    exact ⟨by omega, hw⟩
  · rintro ⟨hlen, hw⟩
    exact ⟨w.length, by omega, rfl, hw⟩

/-- The first `k` elements of the lists `f a` in a row, looking at no more of them than needed. -/
def takeFlat {α β : Type} (f : α → Nat → List β) (k : Nat) : List α → List β
  | [] => []
  | a :: l =>
    match k with
    | 0 => []
    | k + 1 =>
      let front := f a (k + 1)
      front ++ takeFlat f (k + 1 - front.length) l

theorem takeFlat_eq {α β : Type} {f : α → Nat → List β} {g : α → List β}
    (h : ∀ a k, f a k = (g a).take k) (k : Nat) (l : List α) :
    takeFlat f k l = (l.flatMap g).take k := by
  induction l generalizing k with
  | nil => simp [takeFlat]
  | cons a l ih =>
    cases k with
    | zero => simp [takeFlat]
    | succ k =>
      simp only [takeFlat, List.flatMap_cons, h, ih, List.take_append, List.length_take]
      congr 2
      omega

/-- The first `k` words of `n` symbols. -/
def firstWordsOfLength (alphabet : FinSet Char) : Nat → Nat → List (List Char)
  | 0, k => [[]].take k
  | n + 1, k =>
    takeFlat (fun a k => (firstWordsOfLength alphabet n k).map (a :: ·)) k alphabet.toList

theorem firstWordsOfLength_eq (alphabet : FinSet Char) (n k : Nat) :
    firstWordsOfLength alphabet n k = (wordsOfLength alphabet n).take k := by
  induction n generalizing k with
  | zero => rfl
  | succ n ih =>
    rw [firstWordsOfLength, wordsOfLength]
    exact takeFlat_eq (fun a k => by rw [ih, List.map_take]) k alphabet.toList

/-- The first `k` words of the `count` lengths from `n` on. -/
def firstWordsFrom (alphabet : FinSet Char) (n : Nat) : Nat → Nat → List (List Char)
  | 0, _ => []
  | _ + 1, 0 => []
  | count + 1, k + 1 =>
    let front := firstWordsOfLength alphabet n (k + 1)
    front ++ firstWordsFrom alphabet (n + 1) count (k + 1 - front.length)

theorem firstWordsFrom_eq (alphabet : FinSet Char) (n count k : Nat) :
    firstWordsFrom alphabet n count k
      = ((List.range' n count).flatMap (wordsOfLength alphabet)).take k := by
  induction count generalizing n k with
  | zero => simp [firstWordsFrom]
  | succ count ih =>
    cases k with
    | zero => simp [firstWordsFrom]
    | succ k =>
      simp only [firstWordsFrom, firstWordsOfLength_eq, ih, List.range'_succ, List.flatMap_cons,
        List.take_append, List.length_take]
      congr 2
      omega

/-- The first `k` words of at most `n` symbols. -/
def firstWords (alphabet : FinSet Char) (n k : Nat) : List (List Char) :=
  firstWordsFrom alphabet 0 (n + 1) k

/-- **The first words are the beginning of the enumeration.** -/
theorem firstWords_eq (alphabet : FinSet Char) (n k : Nat) :
    firstWords alphabet n k = (wordsUpTo alphabet n).take k := by
  rw [firstWords, firstWordsFrom_eq, wordsUpTo, List.range_eq_range']

end Automata
