import Automata.FinSet
import Mathlib.Data.Char
import Mathlib.Data.List.Shortlex

/-!
# The order of words

Words are ordered by their lengths, and words of one length lexicographically by the code points of
their symbols.  A breadth-first search that follows arcs by ascending label meets words in this
order, because what is appended to a word does not move it past a word that comes later.

## What is here

* `Precedes v w` — `v` comes before `w`.
* `Precedes.asymm`, `Precedes.trans` — the order is a strict one.
* `Precedes.concat` — **an earlier word stays earlier when both words get one more symbol**,
  and `Precedes.concat_iff` — extensions of one word are ordered by what they end in.
* `FinSet.symbols_ascending` — alphabets are listed in the order of code points, too.
-/

set_option autoImplicit false

namespace Automata

/-- `v` comes before `w`: it is shorter, or as long and lexicographically smaller. -/
abbrev Precedes (v w : List Char) : Prop := List.Shortlex (· < ·) v w

namespace Precedes

variable {u v w : List Char}

theorem asymm (h : Precedes v w) : ¬ Precedes w v := Std.Asymm.asymm v w h

theorem trans (huv : Precedes u v) (hvw : Precedes v w) : Precedes u w := by
  rcases List.shortlex_def.1 huv with hlt | ⟨heq, hlex⟩
  · rcases List.shortlex_def.1 hvw with hlt' | ⟨heq', _⟩
    · exact .of_length_lt (hlt.trans hlt')
    · exact .of_length_lt (heq' ▸ hlt)
  · rcases List.shortlex_def.1 hvw with hlt' | ⟨heq', hlex'⟩
    · exact .of_length_lt (heq ▸ hlt')
    · exact .of_lex (heq.trans heq') (List.lt_trans hlex hlex')

/-- No word comes before a shorter one. -/
theorem length_le (h : Precedes v w) : v.length ≤ w.length := by
  rcases List.shortlex_def.1 h with hlt | ⟨heq, _⟩
  · exact hlt.le
  · exact heq.le

/-- A word comes before its proper extensions. -/
theorem append (u : List Char) (hw : w ≠ []) : Precedes u (u ++ w) := by
  refine .of_length_lt ?_
  rw [List.length_append]
  exact Nat.lt_add_of_pos_right (List.length_pos_iff.2 hw)

/-- An earlier word stays earlier when both words get one more symbol. -/
theorem concat (h : Precedes v w) (a c : Char) : Precedes (v ++ [a]) (w ++ [c]) := by
  rcases List.shortlex_def.1 h with hlt | ⟨heq, hlex⟩
  · refine .of_length_lt ?_
    rw [List.length_append, List.length_append]
    exact Nat.add_lt_add_right hlt 1
  · refine .of_lex (by rw [List.length_append, List.length_append, heq]; rfl) ?_
    clear h
    -- the words differ before either of them ends, as they are equally long
    induction hlex with
    | nil => cases heq
    | cons _ ih => exact .cons (ih (Nat.succ.inj heq))
    | rel hlt => exact .rel hlt

/-- Of two words that differ in the last symbol, the one with the smaller symbol is earlier. -/
theorem concat_of_lt (u : List Char) {a c : Char} (h : a < c) :
    Precedes (u ++ [a]) (u ++ [c]) := by
  exact List.Shortlex.append_left ((List.shortlex_singleton_iff a c).2 h) u

/-- Extensions of one word by one symbol are ordered as the symbols are. -/
theorem concat_iff (u : List Char) {a c : Char} : Precedes (u ++ [a]) (u ++ [c]) ↔ a < c := by
  refine ⟨fun h => ?_, concat_of_lt u⟩
  rcases lt_trichotomy a c with hac | rfl | hca
  · exact hac
  · exact absurd h h.asymm
  · exact absurd h (concat_of_lt u hca).asymm

end Precedes

/-- The symbols of an alphabet are listed by their code points. -/
theorem FinSet.symbols_ascending (s : FinSet Char) : s.toList.Pairwise (· < ·) :=
  s.ascending.imp compare_lt_iff_lt.1

end Automata
