import Automata.Proofs.Minimization
import Mathlib.Combinatorics.Enumerative.DoubleCounting

/-!
# Minimal automata are minimal

Every state of the minimal automaton is entered by some tape, and the tape can be continued to an
accepted one.  Hence any automaton for the same language has a state after that tape as well, and a
state there cannot serve two states of the minimal automaton, since some rest of a tape tells them
apart.

## What is here

* `FinSet.size_le_of_relation` — a set that is related to another, no two members to the same, is
  not larger.
* `DFA.Serves` — a state of another automaton stands for a state of the minimal one.
* `DFA.size_minimize_le_of_accepts_eq` — **no automaton for the language has fewer states**, and
  `DFA.minimize_is_minimal`, what this says about minimizing once and twice.
-/

set_option autoImplicit false

namespace Automata

/-- If every member of `s` is related to a member of `t`, and no two of them to the same, then `s`
has at most as many members as `t`. -/
theorem FinSet.size_le_of_relation {s t : FinSet State} (R : State → State → Prop)
    (hs : ∀ a, a ∈ s → ∃ b, b ∈ t ∧ R a b)
    (ht : ∀ a, a ∈ s → ∀ a', a' ∈ s → ∀ b, R a b → R a' b → a = a') : s.size ≤ t.size := by
  classical
  have hcard : ∀ u : FinSet State, u.size = u.toList.toFinset.card := fun u =>
    (List.toFinset_card_of_nodup u.nodup).symm
  rw [hcard, hcard]
  refine Finset.card_le_card_of_forall_subsingleton R (fun a ha => ?_) (fun b _ a ha a' ha' => ?_)
  · obtain ⟨b, hb, hR⟩ := hs a (List.mem_toFinset.1 ha)
    exact ⟨b, List.mem_toFinset.2 hb, hR⟩
  · exact ht a (List.mem_toFinset.1 ha.1) a' (List.mem_toFinset.1 ha'.1) b ha.2 ha'.2

namespace DFA

variable {B D : DFA}

/-- Some tape leads to the name `n` in the minimal automaton of `D` and to the state `b` in `B`. -/
def Serves (B D : DFA) (n b : State) : Prop :=
  ∃ w, D.className (D.after (some D.start) w) = some n ∧ B.after (some B.start) w = some b

/-- Automata for one language accept the same rests after the same tape. -/
theorem future_after_eq (hlang : ∀ w, B.accepts w = D.accepts w) (w v : List Char) :
    B.future (B.after (some B.start) w) v = D.future (D.after (some D.start) w) v := by
  rw [← future_append, ← future_append, ← accepts_eq, ← accepts_eq, hlang]

/-- Every name is served, as a tape that can be continued has not got stuck anywhere. -/
theorem exists_serves (hD : D.WellFormed) (hB : B.WellFormed)
    (hlang : ∀ w, B.accepts w = D.accepts w) {n : State}
    (hn : n ∈ D.merging.names.map Prod.snd) : ∃ b, b ∈ B.states ∧ B.Serves D n b := by
  obtain ⟨x, hx, hxn⟩ := exists_className_eq hn
  cases x with
  | none =>
    rw [className_none] at hxn
    cases hxn
  | some q =>
    obtain ⟨w, hw⟩ := mem_reachable_iff_after.1 (hx q rfl)
    cases hb : B.after (some B.start) w with
    | none =>
      -- had `B` got stuck, nothing could be accepted from `q` either, which then had no name
      have hdead : ∀ v, D.future (some q) v = false := fun v => by
        rw [← hw, ← future_after_eq hlang, hb, future_none]
      rw [(className_eq_none_iff hD hx).2 hdead] at hxn
      cases hxn
    | some b =>
      have hmem := (after_eq_some_iff.1 hb).mem_states hB hB.start_mem
      exact ⟨b, hmem, w, by rw [hw, hxn], hb⟩

/-- A state serves one name only. -/
theorem eq_of_serves (hD : D.WellFormed) (hlang : ∀ w, B.accepts w = D.accepts w)
    {n m b : State} (hn : B.Serves D n b) (hm : B.Serves D m b) : n = m := by
  obtain ⟨v, hvn, hvb⟩ := hn
  obtain ⟨w, hwm, hwb⟩ := hm
  have hname := (className_eq_iff hD (D.reached_start.after v) (D.reached_start.after w)).2
    fun u => by rw [← future_after_eq hlang, ← future_after_eq hlang, hvb, hwb]
  rw [hvn, hwm] at hname
  exact Option.some_inj.1 hname

/-- **No automaton for the language has fewer states.** -/
theorem size_minimize_le_of_accepts_eq (hD : D.WellFormed) (hB : B.WellFormed)
    (hlang : ∀ w, B.accepts w = D.accepts w) : D.minimize.size ≤ B.size := by
  cases h : D.className (some D.start) with
  | none =>
    rw [minimize_of_className_none h]
    exact List.length_pos_of_mem (FinSet.mem_toList.2 hB.start_mem)
  | some start =>
    rw [minimize_of_className h]
    refine FinSet.size_le_of_relation (B.Serves D) (fun n hn => ?_) (fun n _ m _ b hn hm => ?_)
    · exact exists_serves hD hB hlang (FinSet.mem_ofList.1 hn)
    · exact eq_of_serves hD hlang hn hm

/-- **The minimal automaton is minimal** among all automata for the language, whatever their states
and alphabets.  So it is not larger than the one it was made from, and minimizing it again does not
make it smaller. -/
theorem minimize_is_minimal (hD : D.WellFormed) :
    (∀ B : DFA, B.WellFormed → (∀ w, B.accepts w = D.accepts w) → D.minimize.size ≤ B.size) ∧
      D.minimize.size ≤ D.size ∧ D.minimize.size ≤ D.minimize.minimize.size := by
  have hM := wellFormed_minimize hD
  refine ⟨fun B hB hlang => size_minimize_le_of_accepts_eq hD hB hlang, ?_, ?_⟩
  · exact size_minimize_le_of_accepts_eq hD hD fun _ => rfl
  · refine size_minimize_le_of_accepts_eq hD (wellFormed_minimize hM) fun w => ?_
    rw [minimize_accepts_eq hM, minimize_accepts_eq hD]

theorem mergeable_minimize_is_minimal : mergeable.WellFormed ∧
    (∀ B : DFA, B.WellFormed → (∀ w, B.accepts w = mergeable.accepts w) →
      mergeable.minimize.size ≤ B.size) ∧
    mergeable.minimize.size ≤ mergeable.size ∧
    mergeable.minimize.size ≤ mergeable.minimize.minimize.size :=
  ⟨by decide, minimize_is_minimal (by decide)⟩

end DFA

end Automata
