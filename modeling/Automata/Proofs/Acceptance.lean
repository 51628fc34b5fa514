import Automata.NFA.Acceptance
import Automata.Proofs.Naming
import Automata.Proofs.Runs

/-!
# The three ways to decide acceptance agree

Backtracking follows one run at a time, the frontier all of them at once, and the tabulated form
does the latter on numbers, with every step kept in a table.  Each is compared with the paths of the
automaton by the invariant of its own loop.

## What is here

* `NFA.search_iff` — the stack holds a run that can be completed exactly if one of its entries can.
* `NFA.frontier` and `NFA.accepts_eq_meets` — acceptance by the set of states active after the tape;
  stopping early when no state is left makes no difference.
* `NFA.acceptsTabulated_eq` — **on a well-formed automaton the masks are the sets they stand for,
  step by step**, and the table never holds anything but steps (`SuccessorMatrix.Faithful`).
-/

set_option autoImplicit false

namespace Automata

namespace NFA

variable {A : NFA}

/-! ## Backtracking -/

/-- The search succeeds exactly if some pending run can be completed. -/
theorem search_iff {pending : List (State × List Char)} :
    A.search pending = true ↔ ∃ run ∈ pending, A.AcceptsFrom run.1 run.2 := by
  fun_induction search A pending with
  | case1 => simp
  | case2 q pending ih =>
    simp only [Bool.or_eq_true, ih, isFinal_iff, List.mem_cons, exists_eq_or_imp,
      acceptsFrom_nil_iff]
  | case3 q a w pending ih =>
    simp only [ih, List.mem_cons, exists_eq_or_imp, acceptsFrom_cons_iff]
    refine ⟨?_, ?_⟩
    · rintro ⟨run, hrun, hacc⟩
      rcases List.mem_append.1 hrun with hnew | hold
      · obtain ⟨p, hp, rfl⟩ := List.mem_map.1 hnew
        exact .inl ⟨p, mem_next.1 (List.mem_reverse.1 hp), hacc⟩
      · exact .inr ⟨run, hold, hacc⟩
    · rintro (⟨p, hp, hacc⟩ | ⟨run, hrun, hacc⟩)
      · refine ⟨(p, w), List.mem_append_left _ (List.mem_map.2 ⟨p, ?_, rfl⟩), hacc⟩
        exact List.mem_reverse.2 (mem_next.2 hp)
      · exact ⟨run, List.mem_append_right _ hrun, hacc⟩

/-- **Backtracking accepts the tapes that the automaton accepts.** -/
theorem acceptsBacktracking_iff {tape : List Char} :
    A.acceptsBacktracking tape = true ↔ A.Accepts tape := by
  rw [acceptsBacktracking, search_iff]
  simp only [List.mem_singleton, exists_eq_left]
  exact Iff.rfl

/-! ## All runs at once -/

/-- The states that are active after a tape. -/
def frontier (A : NFA) (active : FinSet State) (tape : List Char) : FinSet State :=
  tape.foldl A.step active

@[simp] theorem frontier_nil (active : FinSet State) : A.frontier active [] = active := rfl

@[simp] theorem frontier_cons (active : FinSet State) (a : Char) (w : List Char) :
    A.frontier active (a :: w) = A.frontier (A.step active a) w := rfl

/-- The active states are the ends of the paths that the tape allows. -/
theorem mem_frontier {active : FinSet State} {w : List Char} {p : State} :
    p ∈ A.frontier active w ↔ ∃ q, q ∈ active ∧ A.Path q w p := by
  induction w generalizing active with
  | nil =>
    rw [frontier_nil]
    refine ⟨fun h => ?_, ?_⟩
    · exact ⟨p, h, .nil p⟩
    · rintro ⟨q, hq, hp⟩
      cases hp
      exact hq
  | cons a w ih =>
    rw [frontier_cons, ih]
    refine ⟨?_, ?_⟩
    · rintro ⟨r, hr, hp⟩
      obtain ⟨q, hq, he⟩ := mem_step.1 hr
      exact ⟨q, hq, .cons he hp⟩
    · rintro ⟨q, hq, hp⟩
      cases hp with
      | cons he hp => exact ⟨_, mem_step.2 ⟨q, hq, he⟩, hp⟩

theorem frontier_of_isEmpty {active : FinSet State} (h : active.isEmpty = true) (w : List Char) :
    (A.frontier active w).isEmpty = true := by
  rw [FinSet.isEmpty_iff] at h ⊢
  intro p hp
  obtain ⟨q, hq, _⟩ := mem_frontier.1 hp
  exact h q hq

theorem meets_of_isEmpty {s t : FinSet State} (h : s.isEmpty = true) : s.meets t = false := by
  rw [Bool.eq_false_iff, Ne, FinSet.meets_iff]
  rintro ⟨q, hq, _⟩
  exact FinSet.isEmpty_iff.1 h q hq

/-- Stopping as soon as no state is active gives the answer of the states active in the end. -/
theorem acceptsFrom_eq_meets (active : FinSet State) (w : List Char) :
    A.acceptsFrom active w = (A.frontier active w).meets A.finals := by
  induction w generalizing active with
  | nil => rfl
  | cons a w ih =>
    rw [acceptsFrom, frontier_cons]
    by_cases h : (A.step active a).isEmpty = true
    · rw [if_pos h, meets_of_isEmpty (frontier_of_isEmpty h w)]
    · rw [if_neg h, ih]

theorem accepts_eq_meets (w : List Char) :
    A.accepts w = (A.frontier (FinSet.singleton A.start) w).meets A.finals :=
  acceptsFrom_eq_meets _ _

/-- **Following all runs at once accepts the tapes that the automaton accepts.** -/
theorem accepts_iff {tape : List Char} : A.accepts tape = true ↔ A.Accepts tape := by
  rw [accepts_eq_meets, FinSet.meets_iff]
  refine ⟨?_, ?_⟩
  · rintro ⟨p, hp, hf⟩
    obtain ⟨q, hq, hpath⟩ := mem_frontier.1 hp
    rw [FinSet.mem_singleton] at hq
    exact ⟨p, hq ▸ hpath, hf⟩
  · rintro ⟨p, hp, hf⟩
    exact ⟨p, mem_frontier.2 ⟨A.start, FinSet.mem_singleton.2 rfl, hp⟩, hf⟩

/-! ## On numbers -/

theorem testBit_one_shiftLeft {i j : Nat} : (1 <<< i).testBit j = true ↔ j = i := by
  rw [Nat.testBit_shiftLeft, Bool.and_eq_true, decide_eq_true_iff,
    Nat.testBit_one_eq_true_iff_self_eq_zero]
  omega

/-- The bits of a mask are the numbers it was made from. -/
theorem testBit_mask {l : List Nat} {i : Nat} : (mask l).testBit i = true ↔ i ∈ l := by
  induction l with
  | nil => simp [mask]
  | cons j l ih =>
    have hcons : mask (j :: l) = 1 <<< j ||| mask l := rfl
    rw [hcons, Nat.testBit_or, Bool.or_eq_true, testBit_one_shiftLeft, ih, List.mem_cons]

theorem mem_bits {m i : Nat} : i ∈ bits m ↔ m.testBit i = true := by
  rw [bits, List.mem_filter, List.mem_range, and_iff_right_iff_imp]
  intro h
  by_contra hlt
  rw [Nat.testBit_lt_two_pow] at h
  · cases h
  · exact Nat.lt_of_lt_of_le Nat.lt_log2_self (Nat.pow_le_pow_right Nat.two_pos (by omega))

theorem testBit_foldr_or {l : List Nat} {i : Nat} :
    (l.foldr (fun row m => row ||| m) 0).testBit i = true ↔ ∃ row ∈ l, row.testBit i = true := by
  induction l with
  | nil => simp
  | cons r l ih =>
    simp only [List.foldr_cons, Nat.testBit_or, Bool.or_eq_true, ih, List.mem_cons,
      exists_eq_or_imp]

/-- The number of a state is its place among the states. -/
theorem numberOf_eq_some_iff {q : State} {i : Nat} :
    A.numberOf q = some i ↔ A.states.toList[i]? = some q :=
  idxOf?_eq_some_iff_getElem? A.states.nodup

theorem exists_numberOf {q : State} (h : q ∈ A.states) : ∃ i, A.numberOf q = some i :=
  exists_idxOf?_eq_some h

/-- The mask of a set of states. -/
def maskOf (A : NFA) (s : FinSet State) : Nat := mask (s.toList.filterMap A.numberOf)

theorem testBit_maskOf {s : FinSet State} {i : Nat} :
    (A.maskOf s).testBit i = true ↔ ∃ q, q ∈ s ∧ A.numberOf q = some i := by
  rw [maskOf, testBit_mask, List.mem_filterMap]
  exact Iff.rfl

theorem maskOf_eq_zero {s : FinSet State} (h : s.isEmpty = true) : A.maskOf s = 0 := by
  refine Nat.eq_of_testBit_eq fun i => ?_
  rw [Nat.zero_testBit, Bool.eq_false_iff, Ne, testBit_maskOf]
  rintro ⟨q, hq, _⟩
  exact FinSet.isEmpty_iff.1 h q hq

/-- The mask of known states is zero only if there are none. -/
theorem maskOf_eq_zero_iff {s : FinSet State} (hs : ∀ q, q ∈ s → q ∈ A.states) :
    A.maskOf s = 0 ↔ s.isEmpty = true := by
  refine ⟨fun h => FinSet.isEmpty_iff.2 fun q hq => ?_, maskOf_eq_zero⟩
  obtain ⟨i, hi⟩ := exists_numberOf (hs q hq)
  have hbit : (A.maskOf s).testBit i = true := testBit_maskOf.2 ⟨q, hq, hi⟩
  rw [h, Nat.zero_testBit] at hbit
  cases hbit

/-- Masks share a bit exactly if the sets share a member. -/
theorem maskOf_and_ne_zero {s t : FinSet State} (hs : ∀ q, q ∈ s → q ∈ A.states) :
    (A.maskOf s &&& A.maskOf t != 0) = s.meets t := by
  rw [Bool.eq_iff_iff, bne_iff_ne, FinSet.meets_iff]
  refine ⟨fun h => ?_, ?_⟩
  · obtain ⟨i, hi⟩ := Nat.exists_testBit_of_ne_zero h
    rw [Nat.testBit_and, Bool.and_eq_true, testBit_maskOf, testBit_maskOf] at hi
    obtain ⟨⟨q, hq, hqi⟩, p, hp, hpi⟩ := hi
    have hqp : q = p := Option.some_inj.1
      ((numberOf_eq_some_iff.1 hqi).symm.trans (numberOf_eq_some_iff.1 hpi))
    exact ⟨q, hq, hqp ▸ hp⟩
  · rintro ⟨q, hq, hq'⟩ h
    obtain ⟨i, hi⟩ := exists_numberOf (hs q hq)
    have hbit : (A.maskOf s &&& A.maskOf t).testBit i = true := by
      rw [Nat.testBit_and, Bool.and_eq_true, testBit_maskOf, testBit_maskOf]
      exact ⟨⟨q, hq, hi⟩, q, hq', hi⟩
    rw [h, Nat.zero_testBit] at hbit
    cases hbit

theorem successorRows_getElem? {a : Char} {i : Nat} :
    (A.successorRows a)[i]? = A.states.toList[i]?.map fun q => A.maskOf (A.next q a) :=
  List.getElem?_map

/-- **A step on masks is a step on sets.** -/
theorem step_maskOf (hA : A.WellFormed) (active : FinSet State) (a : Char) :
    A.successorMatrix.step (A.maskOf active) a = A.maskOf (A.step active a) := by
  rw [SuccessorMatrix.step, successorMatrix, lookup_map_pair]
  by_cases ha : A.alphabet.toList.contains a = true
  · rw [if_pos ha]
    refine Nat.eq_of_testBit_eq fun i => ?_
    rw [Bool.eq_iff_iff, testBit_foldr_or, testBit_maskOf]
    simp only [List.mem_filterMap, mem_bits, testBit_maskOf, successorRows_getElem?,
      Option.map_eq_some_iff, mem_step]
    refine ⟨?_, ?_⟩
    · rintro ⟨row, ⟨j, ⟨q, hq, hj⟩, r, hr, rfl⟩, hrow⟩
      obtain ⟨p, hp, hpi⟩ := testBit_maskOf.1 hrow
      have hqr : q = r := Option.some_inj.1 ((numberOf_eq_some_iff.1 hj).symm.trans hr)
      exact ⟨p, ⟨q, hq, hqr ▸ mem_next.1 hp⟩, hpi⟩
    · rintro ⟨p, ⟨q, hq, he⟩, hpi⟩
      obtain ⟨j, hj⟩ := exists_numberOf (hA.source_mem _ he)
      exact ⟨_, ⟨j, ⟨q, hq, hj⟩, q, numberOf_eq_some_iff.1 hj, rfl⟩,
        testBit_maskOf.2 ⟨p, mem_next.2 he, hpi⟩⟩
  · -- no edge carries a symbol that the automaton does not know
    rw [if_neg ha]
    refine (maskOf_eq_zero (FinSet.isEmpty_iff.2 fun p hp => ha ?_)).symm
    obtain ⟨q, _, he⟩ := mem_step.1 hp
    exact List.contains_iff_mem.2 (hA.symbol_mem _ he)

theorem step_subset (hA : A.WellFormed) (active : FinSet State) (a : Char) :
    ∀ q, q ∈ A.step active a → q ∈ A.states := by
  intro q hq
  obtain ⟨_, _, he⟩ := mem_step.1 hq
  exact hA.target_mem _ he

/-- The table of known steps holds nothing but steps. -/
def SuccessorMatrix.Faithful (rows : SuccessorMatrix) (known : StepMemo) : Prop :=
  ∀ active a m, known.lookup (active, a) = some m → m = rows.step active a

theorem SuccessorMatrix.faithful_nil (rows : SuccessorMatrix) : rows.Faithful [] := by
  intro active a m h
  cases h

theorem SuccessorMatrix.Faithful.cons {rows : SuccessorMatrix} {known : StepMemo}
    (h : rows.Faithful known) (active : Nat) (a : Char) :
    rows.Faithful (((active, a), rows.step active a) :: known) := by
  intro active' a' m hm
  rw [List.lookup_cons] at hm
  split at hm
  · rename_i heq
    rw [beq_iff_eq, Prod.mk.injEq] at heq
    cases hm
    rw [heq.1, heq.2]
  · exact h active' a' m hm

/-- One symbol of the tabulated form: whether or not the step was known, it is taken, and the table
holds nothing but steps afterwards. -/
theorem SuccessorMatrix.acceptsFrom_cons {rows : SuccessorMatrix} {known : StepMemo}
    (h : rows.Faithful known) (finals active : Nat) (a : Char) (w : List Char) :
    ∃ known', rows.Faithful known' ∧ rows.acceptsFrom finals known active (a :: w)
      = if rows.step active a = 0 then false
        else rows.acceptsFrom finals known' (rows.step active a) w := by
  rw [SuccessorMatrix.acceptsFrom]
  cases hm : known.lookup (active, a) with
  | none => exact ⟨_, h.cons active a, rfl⟩
  | some m =>
    have hstep := h active a m hm
    subst hstep
    exact ⟨known, h, rfl⟩

/-- The tabulated form follows the sets of active states, whatever steps it already knows. -/
theorem acceptsFrom_maskOf (hA : A.WellFormed) {known : StepMemo}
    (hknown : A.successorMatrix.Faithful known) {active : FinSet State}
    (hactive : ∀ q, q ∈ active → q ∈ A.states) (w : List Char) :
    A.successorMatrix.acceptsFrom (A.maskOf A.finals) known (A.maskOf active) w
      = A.acceptsFrom active w := by
  induction w generalizing known active with
  | nil => exact maskOf_and_ne_zero hactive
  | cons a w ih =>
    obtain ⟨known', hknown', hcons⟩ :=
      SuccessorMatrix.acceptsFrom_cons hknown (A.maskOf A.finals) (A.maskOf active) a w
    have hsub := step_subset hA active a
    rw [hcons, step_maskOf hA, ih hknown' hsub, acceptsFrom]
    simp only [maskOf_eq_zero_iff hsub]

/-- **The tabulated form answers as the frontier does.** -/
theorem acceptsTabulated_eq (hA : A.WellFormed) (tape : List Char) :
    A.acceptsTabulated tape = A.accepts tape := by
  have hstart : ∀ q, q ∈ FinSet.singleton A.start → q ∈ A.states := by
    intro q hq
    rw [FinSet.mem_singleton] at hq
    exact hq ▸ hA.start_mem
  exact acceptsFrom_maskOf hA (SuccessorMatrix.faithful_nil _) hstart tape

end NFA

end Automata
