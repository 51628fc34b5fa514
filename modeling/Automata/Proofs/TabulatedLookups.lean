import Automata.Proofs.Acceptance
import Mathlib.Data.List.Induction

/-!
# The lookups of the tabulated form

The tabulated form works on numbers.  It asks for the numbers of the states in edges, of the start
and of the final states, and then for the rows of these numbers, all without a second way out: an
edge that left the states, or a row that was missing, would end the program.  Here each of these
lookups may fail, and if one does, there is no answer.

## What is here

* `mapM_eq_some_filterMap`, `exists_foldlM` — lists of which no entry fails, and loops over
  lists with an invariant of the part that is done.
* `NFA.enter?`, `NFA.enteredMatrix?` — the rows, filled edge by edge; `NFA.Tabulates` — what they
  say about the edges that have been entered, and `NFA.exists_enteredMatrix`.
* `NFA.SuccessorMatrix.step?`, `NFA.SuccessorMatrix.acceptsFrom?`, `NFA.acceptsTabulated?` — the
  step, the loop over the tape, and all of it.
* `NFA.Tabulates.step?_maskOf` — **a step finds all of its rows**, and what it yields is the mask of
  a set of states again; `NFA.SuccessorMatrix.Knows` — steps that are known need not be taken again.
* `NFA.acceptsTabulated?_eq` — **no lookup fails, and the answer is that of the tabulated form.**
-/

set_option autoImplicit false

namespace Automata

/-! ## Lists and loops -/

section Loops

variable {α β σ : Type}

/-- If no entry fails, the whole list does not. -/
theorem mapM_eq_some_filterMap {f : α → Option β} {l : List α} (h : ∀ a ∈ l, ∃ b, f a = some b) :
    l.mapM f = some (l.filterMap f) := by
  induction l with
  | nil => rfl
  | cons a l ih =>
    obtain ⟨b, hb⟩ := h a List.mem_cons_self
    rw [List.mapM_cons, hb, ih fun c hc => h c (List.mem_cons_of_mem a hc),
      List.filterMap_cons_some hb]
    rfl

theorem mapM_eq_some_map {f : α → Option β} {g : α → β} {l : List α}
    (h : ∀ a ∈ l, f a = some (g a)) : l.mapM f = some (l.map g) := by
  rw [mapM_eq_some_filterMap fun a ha => ⟨g a, h a ha⟩, List.filterMap_congr h,
    List.filterMap_eq_map']

/-- A loop over a list ends properly if each entry can be processed, whatever has been before, and
the invariant holds of one entry more then. -/
theorem exists_foldlM {f : σ → α → Option σ} {P : List α → σ → Prop} {s : σ} {l : List α}
    (hstart : P [] s) (hstep : ∀ front a s, a ∈ l → P front s →
      ∃ s', f s a = some s' ∧ P (front ++ [a]) s') :
    ∃ s', l.foldlM f s = some s' ∧ P l s' := by
  induction l using List.reverseRecOn with
  | nil => exact ⟨s, rfl, hstart⟩
  | append_singleton l a ih =>
    obtain ⟨s', hs', hP⟩ := ih fun front b s hb => hstep front b s (List.mem_append_left _ hb)
    obtain ⟨s'', hs'', hP'⟩ := hstep l a s' (List.mem_append_right _ (List.mem_singleton_self a)) hP
    refine ⟨s'', ?_, hP'⟩
    rw [List.foldlM_append, hs']
    simpa using hs''

end Loops

namespace NFA

variable {A : NFA} {rows : SuccessorMatrix} {entered : List Edge} {active : FinSet State} {a : Char}

/-! ## The rows -/

/-- The rows of a symbol.  As long as no edge has been entered for it, they are empty. -/
def SuccessorMatrix.rowsOf (rows : SuccessorMatrix) (size : Nat) (a : Char) : List Nat :=
  (rows.lookup a).getD (List.replicate size 0)

/-- Enters an edge: the bit of its target is set in the row of its source.  Both must have numbers,
and there must be such a row. -/
def enter? (A : NFA) (rows : SuccessorMatrix) (e : Edge) : Option SuccessorMatrix := do
  let source ← A.numberOf e.source
  let target ← A.numberOf e.target
  let known := rows.rowsOf A.size e.symbol
  let row ← known[source]?
  return (e.symbol, known.set source (row ||| 1 <<< target)) :: rows

/-- Enters all edges. -/
def enteredMatrix? (A : NFA) : Option SuccessorMatrix := A.edges.toList.foldlM A.enter? []

/-- The rows hold the edges that have been entered, and nothing else. -/
structure Tabulates (A : NFA) (rows : SuccessorMatrix) (entered : List Edge) : Prop where
  /-- For every symbol there is a row for each state. -/
  length_rowsOf : ∀ a, (rows.rowsOf A.size a).length = A.size
  /-- The bits of a row are the targets of the edges that leave its state. -/
  testBit_row : ∀ a i row, (rows.rowsOf A.size a)[i]? = some row → ∀ j, row.testBit j = true ↔
    ∃ e ∈ entered, e.symbol = a ∧ A.numberOf e.source = some i ∧ A.numberOf e.target = some j

theorem Tabulates.nil (A : NFA) : A.Tabulates [] [] where
  length_rowsOf a := by simp [SuccessorMatrix.rowsOf]
  testBit_row a i row hrow j := by
    have hzero : row = 0 := by
      have hmem := List.mem_of_getElem? hrow
      exact List.eq_of_mem_replicate hmem
    simp [hzero]

theorem numberOf_lt_size {q : State} {i : Nat} (h : A.numberOf q = some i) : i < A.size :=
  (List.getElem?_eq_some_iff.1 (numberOf_eq_some_iff.1 h)).1

/-- New rows of a symbol replace the rows that it had. -/
theorem SuccessorMatrix.rowsOf_cons (rows : SuccessorMatrix) (size : Nat) (b : Char)
    (l : List Nat) :
    SuccessorMatrix.rowsOf ((b, l) :: rows) size a = if a = b then l else rows.rowsOf size a := by
  rw [rowsOf, List.lookup_cons, rowsOf]
  by_cases h : a = b
  · simp [h]
  · rw [if_neg h, beq_false_of_ne h]

/-- **An edge between states can be entered**, and then the rows hold one edge more. -/
theorem Tabulates.enter (h : A.Tabulates rows entered) {e : Edge} (hsource : e.source ∈ A.states)
    (htarget : e.target ∈ A.states) :
    ∃ rows', A.enter? rows e = some rows' ∧ A.Tabulates rows' (entered ++ [e]) := by
  obtain ⟨i, hi⟩ := exists_numberOf hsource
  obtain ⟨j, hj⟩ := exists_numberOf htarget
  obtain ⟨row, hrow⟩ : ∃ row, (rows.rowsOf A.size e.symbol)[i]? = some row := by
    have hlt := numberOf_lt_size hi
    rw [← h.length_rowsOf e.symbol] at hlt
    exact ⟨_, List.getElem?_eq_getElem hlt⟩
  refine ⟨(e.symbol, (rows.rowsOf A.size e.symbol).set i (row ||| 1 <<< j)) :: rows, ?_, ?_, ?_⟩
  · simp [enter?, hi, hj, hrow]
  · intro a
    rw [SuccessorMatrix.rowsOf_cons]
    split_ifs
    · rw [List.length_set, h.length_rowsOf]
    · exact h.length_rowsOf a
  · intro a k row' hrow' l
    rw [SuccessorMatrix.rowsOf_cons] at hrow'
    simp only [List.mem_append, List.mem_singleton, or_and_right, exists_or, exists_eq_left]
    split_ifs at hrow' with ha
    · subst ha
      by_cases hk : i = k
      · subst hk
        have hnew : row' = row ||| 1 <<< j := by
          rw [List.getElem?_set_self (List.getElem?_eq_some_iff.1 hrow).1] at hrow'
          exact (Option.some_inj.1 hrow').symm
        rw [hnew, Nat.testBit_or, Bool.or_eq_true, testBit_one_shiftLeft,
          h.testBit_row _ i row hrow]
        simp [hi, hj, eq_comm]
      · rw [List.getElem?_set_ne hk] at hrow'
        rw [h.testBit_row _ k row' hrow']
        simp [hi, hk]
    · rw [h.testBit_row a k row' hrow']
      simp [Ne.symm ha]

/-- **All edges of an automaton that fits together can be entered.** -/
theorem exists_enteredMatrix (hA : A.WellFormed) :
    ∃ rows, A.enteredMatrix? = some rows ∧ A.Tabulates rows A.edges.toList := by
  refine exists_foldlM (P := fun front rows => A.Tabulates rows front) (Tabulates.nil A) ?_
  intro front e rows he hrows
  rw [FinSet.mem_toList] at he
  exact hrows.enter (hA.source_mem e he) (hA.target_mem e he)

/-! ## The run on masks -/

/-- A step on masks.  There must be a row for every bit that is set. -/
def SuccessorMatrix.step? (rows : SuccessorMatrix) (active : Nat) (a : Char) : Option Nat :=
  match rows.lookup a with
  | none => some 0
  | some successors => do
    let entered ← (bits active).mapM fun i => successors[i]?
    return entered.foldr (fun row m => row ||| m) 0

/-- Reads a tape from a mask.  A step that is known is looked up, and one that is not becomes
known. -/
def SuccessorMatrix.acceptsFrom? (rows : SuccessorMatrix) (finals : Nat) (known : StepMemo)
    (active : Nat) : List Char → Option Bool
  | [] => some (active &&& finals != 0)
  | a :: w => do
    let (active', known') ←
      match known.lookup (active, a) with
      | some m => some (m, known)
      | none => (rows.step? active a).map fun m => (m, ((active, a), m) :: known)
    if active' = 0 then return false
    else SuccessorMatrix.acceptsFrom? rows finals known' active' w

/-- Decides acceptance on numbered states, if no lookup fails. -/
def acceptsTabulated? (A : NFA) (tape : List Char) : Option Bool := do
  let rows ← A.enteredMatrix?
  let start ← A.numberOf A.start
  let finals ← A.finals.toList.mapM A.numberOf
  rows.acceptsFrom? (mask finals) [] (mask [start]) tape

/-- The rows of known states are there. -/
theorem Tabulates.exists_row (h : A.Tabulates rows entered) {i : Nat}
    (hi : i ∈ bits (A.maskOf active)) (a : Char) :
    ∃ row, (rows.rowsOf A.size a)[i]? = some row := by
  obtain ⟨q, _, hq⟩ := testBit_maskOf.1 (mem_bits.1 hi)
  have hlt := numberOf_lt_size hq
  rw [← h.length_rowsOf a] at hlt
  exact ⟨_, List.getElem?_eq_getElem hlt⟩

/-- The rows of the active states hold together what comes next. -/
theorem Tabulates.foldr_rows (h : A.Tabulates rows A.edges.toList) (hA : A.WellFormed)
    (active : FinSet State) (a : Char) :
    ((bits (A.maskOf active)).filterMap fun i => (rows.rowsOf A.size a)[i]?).foldr
      (fun row m => row ||| m) 0 = A.maskOf (A.step active a) := by
  refine Nat.eq_of_testBit_eq fun j => ?_
  rw [Bool.eq_iff_iff, testBit_foldr_or, testBit_maskOf]
  simp only [List.mem_filterMap, mem_step]
  constructor
  · rintro ⟨row, ⟨i, hi, hrow⟩, hbit⟩
    obtain ⟨e, he, rfl, hsource, htarget⟩ := (h.testBit_row a i row hrow j).1 hbit
    obtain ⟨q, hq, hqi⟩ := testBit_maskOf.1 (mem_bits.1 hi)
    have heq : q = e.source := Option.some_inj.1
      ((numberOf_eq_some_iff.1 hqi).symm.trans (numberOf_eq_some_iff.1 hsource))
    exact ⟨e.target, ⟨q, hq, heq ▸ he⟩, htarget⟩
  · rintro ⟨p, ⟨q, hq, he⟩, hp⟩
    obtain ⟨i, hi⟩ := exists_numberOf (hA.source_mem _ he)
    have hbits : i ∈ bits (A.maskOf active) := mem_bits.2 (testBit_maskOf.2 ⟨q, hq, hi⟩)
    obtain ⟨row, hrow⟩ := h.exists_row hbits a
    exact ⟨row, ⟨i, hbits, hrow⟩, (h.testBit_row a i row hrow j).2 ⟨_, he, rfl, hi, hp⟩⟩

/-- **A step finds all of its rows**, and yields the mask of the states that come next. -/
theorem Tabulates.step?_maskOf (h : A.Tabulates rows A.edges.toList) (hA : A.WellFormed)
    (active : FinSet State) (a : Char) :
    rows.step? (A.maskOf active) a = some (A.maskOf (A.step active a)) := by
  rw [SuccessorMatrix.step?]
  cases hl : rows.lookup a with
  | none =>
    -- no edge has the symbol, and so all rows are empty
    have hempty : rows.rowsOf A.size a = List.replicate A.size 0 := by
      simp [SuccessorMatrix.rowsOf, hl]
    refine congrArg some (Nat.eq_of_testBit_eq fun j => ?_)
    rw [← h.foldr_rows hA, Bool.eq_iff_iff, testBit_foldr_or, hempty]
    simp [List.getElem?_replicate]
  | some successors =>
    have hrows : rows.rowsOf A.size a = successors := by simp [SuccessorMatrix.rowsOf, hl]
    have hfound : (bits (A.maskOf active)).mapM (fun i => successors[i]?) =
        some ((bits (A.maskOf active)).filterMap fun i => successors[i]?) :=
      mapM_eq_some_filterMap fun i hi => hrows ▸ h.exists_row hi a
    simp only [hfound, ← h.foldr_rows hA, hrows]
    rfl

/-- What is known are steps. -/
def SuccessorMatrix.Knows (rows : SuccessorMatrix) (known : StepMemo) : Prop :=
  ∀ active a m, known.lookup (active, a) = some m → rows.step? active a = some m

theorem SuccessorMatrix.Knows.cons {known : StepMemo} (h : rows.Knows known) {m n : Nat} {a : Char}
    (hm : rows.step? n a = some m) : rows.Knows (((n, a), m) :: known) := by
  intro n' a' m' hm'
  rw [List.lookup_cons] at hm'
  by_cases heq : (n', a') = (n, a)
  · cases heq
    rw [beq_self_eq_true] at hm'
    exact hm'.symm ▸ hm
  · rw [beq_false_of_ne heq] at hm'
    exact h n' a' m' hm'

/-- Whether or not a step is known, it can be taken, and what is known afterwards are steps. -/
theorem SuccessorMatrix.Knows.acceptsFrom?_cons {known : StepMemo} (h : rows.Knows known)
    {m n : Nat} {a : Char} (hm : rows.step? n a = some m) (finals : Nat) (w : List Char) :
    ∃ known', rows.Knows known' ∧ rows.acceptsFrom? finals known n (a :: w) =
      if m = 0 then some false else rows.acceptsFrom? finals known' m w := by
  rw [acceptsFrom?]
  cases hlookup : known.lookup (n, a) with
  | none => exact ⟨_, h.cons hm, by rw [hm]; rfl⟩
  | some m' =>
    obtain rfl : m' = m := Option.some_inj.1 ((h n a m' hlookup).symm.trans hm)
    exact ⟨known, h, rfl⟩

/-- **No lookup fails while a tape is read**, whatever steps are known, and the answer is that of
the sets of active states. -/
theorem Tabulates.acceptsFrom?_maskOf (h : A.Tabulates rows A.edges.toList) (hA : A.WellFormed)
    {known : StepMemo} (hknown : rows.Knows known) (hactive : ∀ q, q ∈ active → q ∈ A.states)
    (w : List Char) : rows.acceptsFrom? (A.maskOf A.finals) known (A.maskOf active) w =
      some (A.acceptsFrom active w) := by
  induction w generalizing known active with
  | nil => exact congrArg some (maskOf_and_ne_zero hactive)
  | cons a w ih =>
    have hsub := step_subset hA active a
    obtain ⟨known', hknown', hcons⟩ :=
      hknown.acceptsFrom?_cons (h.step?_maskOf hA active a) (A.maskOf A.finals) w
    rw [hcons, ih hknown' hsub, acceptsFrom]
    simp only [maskOf_eq_zero_iff hsub]
    split_ifs <;> rfl

/-- **No lookup of the tabulated form fails**, and the answer is the one that it gives. -/
theorem acceptsTabulated?_eq (hA : A.WellFormed) (tape : List Char) :
    A.acceptsTabulated? tape = some (A.acceptsTabulated tape) := by
  obtain ⟨rows, hrows, htabulates⟩ := exists_enteredMatrix hA
  obtain ⟨i, hi⟩ := exists_numberOf hA.start_mem
  have hstart : mask [i] = A.maskOf (FinSet.singleton A.start) := by
    simp [maskOf, FinSet.singleton, hi]
  have hfinals : A.finals.toList.mapM A.numberOf = some (A.finals.toList.filterMap A.numberOf) :=
    mapM_eq_some_filterMap fun q hq => exists_numberOf (hA.finals_subset q hq)
  have hsub : ∀ q, q ∈ FinSet.singleton A.start → q ∈ A.states := by
    simpa using hA.start_mem
  have hknown : rows.Knows [] := fun _ _ _ h => by simp at h
  have hanswer := htabulates.acceptsFrom?_maskOf hA hknown hsub tape
  rw [acceptsTabulated_eq hA, accepts, ← hanswer, ← hstart]
  simp only [acceptsTabulated?, hrows, hi, hfinals]
  rfl

/-- The target of the edge is not a state, and so it has no number. -/
example : acceptsTabulated? ⟨FinSet.ofList ["p"], FinSet.ofList ['a'], "p", ∅,
    FinSet.ofList [⟨"p", 'a', "q"⟩]⟩ [] = none := by
  decide

end NFA

end Automata
