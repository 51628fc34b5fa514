import Automata.FinMap
import Automata.Relation
import Mathlib.Data.List.Nodup

/-!
# Transitions in two layers of maps

A transition relation can also be kept as a map from states to rows, where a row is a map from
symbols to cells and a cell holds the targets.  Such maps are equal if they hold the same cells, and
that is a question of what is left behind: a row without cells, or a cell without targets, would tell
two maps apart that allow the same moves.  Inserting a transition never leaves one behind.

## What is here

* `Cell` — how the targets of one state and symbol are kept: `Cell.last` holds one of them, which is
  replaced, and `Cell.all` holds any number.
* `TransitionMap` — the two layers, with `TransitionMap.insert`, `TransitionMap.successors` and
  `TransitionMap.transitions`.
* `TransitionMap.mem_successors_insert` — what an insertion changes.
* `TransitionMap.NoLeftovers` — no row and no cell is empty; `TransitionMap.noLeftovers_insert`, and
  `TransitionMap.eq_of_noLeftovers` — **maps without leftovers are determined by their moves.**
-/

set_option autoImplicit false

namespace Automata

/-! ## Cells -/

/-- How the targets of one state and symbol are kept. -/
structure Cell (β : Type) where
  /-- Whether only one target can be kept. -/
  single : Bool
  /-- The targets that are kept. -/
  targets : β → List State
  /-- What is kept when a target joins those that were kept before, if there were any. -/
  add : State → Option β → β
  /-- No target is listed twice. -/
  nodup : ∀ c, (targets c).Nodup
  /-- Nothing but the targets is kept. -/
  ext : ∀ c d, (∀ p, p ∈ targets c ↔ p ∈ targets d) → c = d
  /-- A target that joins others replaces them if only one can be kept. -/
  mem_add : ∀ p c r, r ∈ targets (add p c) ↔
    r = p ∨ single = false ∧ ∃ d, c = some d ∧ r ∈ targets d

namespace Cell

/-- One target, which is replaced by the next one. -/
def last : Cell State where
  single := true
  targets p := [p]
  add p _ := p
  nodup := List.nodup_singleton
  ext c d h := List.mem_singleton.1 ((h c).1 (List.mem_singleton.2 rfl))
  mem_add p c r := by simp

/-- Any number of targets, in ascending order. -/
def all : Cell (FinSet State) where
  single := false
  targets := FinSet.toList
  add p c := (c.getD ∅).insert p
  nodup := FinSet.nodup
  ext _ _ := FinSet.ext
  mem_add p c r := by cases c <;> simp

end Cell

/-! ## Maps of rows -/

/-- For each state a row, which has a cell for each symbol. -/
abbrev TransitionMap (β : Type) := FinMap State (FinMap Char β)

namespace TransitionMap

variable {β : Type} {K : Cell β} {m n : TransitionMap β} {e : Edge} {q p : State} {a : Char} {c : β}

/-- The cell of a state and symbol, if there is one. -/
def cell? (m : TransitionMap β) (q : State) (a : Char) : Option β :=
  (m.get? q).bind fun row => row.get? a

/-- The targets of a state and symbol. -/
def successors (K : Cell β) (m : TransitionMap β) (q : State) (a : Char) : List State :=
  ((m.cell? q a).map K.targets).getD []

/-- All transitions, row by row and cell by cell. -/
def transitions (K : Cell β) (m : TransitionMap β) : List Edge :=
  m.entries.flatMap fun row => row.2.entries.flatMap fun cell =>
    (K.targets cell.2).map fun p => ⟨row.1, cell.1, p⟩

/-- The map with one more transition.  Its row and its cell are made if they are missing. -/
def insert (K : Cell β) (e : Edge) (m : TransitionMap β) : TransitionMap β :=
  let row := (m.get? e.source).getD ∅
  FinMap.insert e.source (row.insert e.symbol (K.add e.target (row.get? e.symbol))) m

theorem cell?_eq_some_iff :
    m.cell? q a = some c ↔ ∃ row, m.get? q = some row ∧ row.get? a = some c :=
  Option.bind_eq_some_iff

/-- The row of a state, or an empty one if there is none, has its cells. -/
theorem get?_row (m : TransitionMap β) (q : State) (a : Char) :
    ((m.get? q).getD ∅).get? a = m.cell? q a := by
  rw [cell?]
  cases m.get? q <;> rfl

/-! ## What is listed -/

theorem mem_successors_iff :
    p ∈ successors K m q a ↔ ∃ c, m.cell? q a = some c ∧ p ∈ K.targets c := by
  rw [successors]
  cases m.cell? q a <;> simp

/-- Every successor is listed once. -/
theorem nodup_successors (K : Cell β) (m : TransitionMap β) (q : State) (a : Char) :
    (successors K m q a).Nodup := by
  rw [successors]
  cases m.cell? q a with
  | none => exact .nil
  | some c => exact K.nodup c

theorem mem_transitions_iff :
    e ∈ transitions K m ↔ e.target ∈ successors K m e.source e.symbol := by
  simp only [transitions, List.mem_flatMap, List.mem_map, mem_successors_iff, cell?_eq_some_iff,
    FinMap.get?_eq_some_iff]
  constructor
  · rintro ⟨⟨q, row⟩, hrow, ⟨a, c⟩, hcell, p, hp, rfl⟩
    exact ⟨c, ⟨row, hrow, hcell⟩, hp⟩
  · rintro ⟨c, ⟨row, hrow, hcell⟩, hp⟩
    exact ⟨(e.source, row), hrow, (e.symbol, c), hcell, e.target, hp, rfl⟩

/-- **Every transition is listed once.** -/
theorem nodup_transitions (K : Cell β) (m : TransitionMap β) : (transitions K m).Nodup := by
  refine List.nodup_flatMap.2 ⟨fun row _ => List.nodup_flatMap.2 ⟨fun cell _ => ?_, ?_⟩, ?_⟩
  · exact (K.nodup cell.2).map fun p r h => (Edge.mk.inj h).2.2
  · refine row.2.pairwise_fst_ne.imp fun {d d'} hne e he he' => ?_
    obtain ⟨_, _, rfl⟩ := List.mem_map.1 he
    obtain ⟨_, _, heq⟩ := List.mem_map.1 he'
    exact hne (Edge.mk.inj heq).2.1.symm
  · refine m.pairwise_fst_ne.imp fun {d d'} hne e he he' => ?_
    obtain ⟨_, _, he⟩ := List.mem_flatMap.1 he
    obtain ⟨_, _, rfl⟩ := List.mem_map.1 he
    obtain ⟨_, _, he'⟩ := List.mem_flatMap.1 he'
    obtain ⟨_, _, heq⟩ := List.mem_map.1 he'
    exact hne (Edge.mk.inj heq).1.symm

/-! ## What an insertion changes -/

theorem cell?_insert (K : Cell β) (e : Edge) (m : TransitionMap β) (q : State) (a : Char) :
    (insert K e m).cell? q a =
      if e.leaves q a then some (K.add e.target (m.cell? q a)) else m.cell? q a := by
  by_cases hq : q = e.source
  · subst hq
    by_cases ha : a = e.symbol
    · subst ha
      simp [cell?, insert, get?_row, Edge.leaves]
    · simp [cell?, insert, get?_row, Edge.leaves, ha, Ne.symm ha]
  · simp [cell?, insert, Edge.leaves, hq, Ne.symm hq]

/-- **A transition that is inserted joins the others**, and replaces the one that it competes with if
cells hold single targets. -/
theorem mem_successors_insert : p ∈ successors K (insert K e m) q a ↔
    (⟨q, a, p⟩ : Edge) = e ∨
      p ∈ successors K m q a ∧ (K.single = true → e.leaves q a = false) := by
  rw [mem_successors_iff, mem_successors_iff, cell?_insert]
  by_cases h : e.leaves q a = true
  · have he : (⟨q, a, p⟩ : Edge) = e ↔ p = e.target := by
      obtain ⟨rfl, rfl⟩ := Edge.leaves_iff.1 h
      exact ⟨fun heq => congrArg Edge.target heq, fun heq => congrArg (Edge.mk _ _) heq⟩
    simp [h, he, K.mem_add, and_comm]
  · have he : (⟨q, a, p⟩ : Edge) ≠ e := by
      rintro rfl
      exact h (Edge.leaves_iff.2 ⟨rfl, rfl⟩)
    simp [h, he]

theorem mem_transitions_insert {d : Edge} : d ∈ transitions K (insert K e m) ↔
    d = e ∨ d ∈ transitions K m ∧ (K.single = true → e.leaves d.source d.symbol = false) := by
  rw [mem_transitions_iff, mem_transitions_iff, mem_successors_insert]

/-! ## What insertions leave behind -/

/-- No row is without cells, and no cell is without targets. -/
structure NoLeftovers (K : Cell β) (m : TransitionMap β) : Prop where
  /-- Every row has a cell. -/
  row_ne : ∀ q row, m.get? q = some row → ∃ a c, row.get? a = some c
  /-- Every cell has a target. -/
  cell_ne : ∀ q a c, m.cell? q a = some c → ∃ p, p ∈ K.targets c

theorem noLeftovers_empty (K : Cell β) : NoLeftovers K ∅ where
  row_ne _ _ h := by cases h
  cell_ne _ _ _ h := by cases h

/-- **An insertion leaves nothing behind.** -/
theorem noLeftovers_insert (h : NoLeftovers K m) (e : Edge) : NoLeftovers K (insert K e m) where
  row_ne q row hrow := by
    rw [insert, FinMap.get?_insert] at hrow
    split at hrow
    · cases hrow
      exact ⟨e.symbol, _, by rw [FinMap.get?_insert, if_pos rfl]⟩
    · exact h.row_ne q row hrow
  cell_ne q a c hcell := by
    rw [cell?_insert] at hcell
    split at hcell
    · cases hcell
      exact ⟨e.target, (K.mem_add _ _ _).2 (.inl rfl)⟩
    · exact h.cell_ne q a c hcell

/-- A cell that is missing in one of two maps with the same moves is missing in the other one. -/
theorem cell?_eq_none (hm : NoLeftovers K m)
    (h : ∀ q a p, p ∈ successors K m q a → p ∈ successors K n q a) (hn : n.cell? q a = none) :
    m.cell? q a = none := by
  cases hc : m.cell? q a with
  | none => rfl
  | some c =>
    obtain ⟨p, hp⟩ := hm.cell_ne q a c hc
    obtain ⟨d, hd, _⟩ := mem_successors_iff.1 (h q a p (mem_successors_iff.2 ⟨c, hc, hp⟩))
    rw [hn] at hd
    cases hd

theorem get?_eq_none (hm : NoLeftovers K m) (h : ∀ a, m.cell? q a = none) : m.get? q = none := by
  cases hrow : m.get? q with
  | none => rfl
  | some row =>
    obtain ⟨a, c, hc⟩ := hm.row_ne q row hrow
    have hcell := h a
    rw [cell?, hrow, Option.bind_some, hc] at hcell
    cases hcell

/-- Maps without leftovers that allow the same moves have the same cells. -/
theorem cell?_eq (hm : NoLeftovers K m) (hn : NoLeftovers K n)
    (h : ∀ q a p, p ∈ successors K m q a ↔ p ∈ successors K n q a) (q : State) (a : Char) :
    m.cell? q a = n.cell? q a := by
  cases hd : n.cell? q a with
  | none => exact cell?_eq_none hm (fun q a p => (h q a p).1) hd
  | some d =>
    cases hc : m.cell? q a with
    | none =>
      rw [cell?_eq_none hn (fun q a p => (h q a p).2) hc] at hd
      cases hd
    | some c =>
      have htargets : ∀ p, p ∈ K.targets c ↔ p ∈ K.targets d := fun p => by
        simpa [mem_successors_iff, hc, hd] using h q a p
      rw [K.ext c d htargets]

/-- **Maps without leftovers are determined by their moves.** -/
theorem eq_of_noLeftovers (hm : NoLeftovers K m) (hn : NoLeftovers K n)
    (h : ∀ q a p, p ∈ successors K m q a ↔ p ∈ successors K n q a) : m = n := by
  have hcell := cell?_eq hm hn h
  refine FinMap.ext fun q => ?_
  cases hrow : m.get? q with
  | none =>
    refine (get?_eq_none hn fun a => ?_).symm
    rw [← hcell, cell?, hrow, Option.bind_none]
  | some row =>
    cases hrow' : n.get? q with
    | none =>
      rw [get?_eq_none hm fun a => ?_] at hrow
      · cases hrow
      · rw [hcell, cell?, hrow', Option.bind_none]
    | some row' =>
      have heq : row = row' := FinMap.ext fun a => by
        simpa [cell?, hrow, hrow'] using hcell q a
      rw [heq]

end TransitionMap

end Automata
