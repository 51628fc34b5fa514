import Automata.DFA.Comparison

/-!
# Runs

What it means to read a tape from somewhere else than the start, which is what every induction over
a tape needs.

## What is here

* `NFA.AcceptsFrom` — acceptance from an arbitrary state, with its two equations.
* `DFA.move` and `DFA.after` — the position of a deterministic run after a symbol and after a tape.
  A position is `none` once the run is stuck, and then stays so; this is the sink that the
  comparison and the minimization of automata add to the states.
* `DFA.accepts_eq`, `DFA.run_complete_iff`, `DFA.run_stuck_iff` — what `DFA.run` and `DFA.accepts`
  answer, in terms of positions, and `DFA.accepts_iff`, in terms of paths.
* `DFA.after_of_simulation` — **a map that commutes with single moves commutes with runs.**
-/

set_option autoImplicit false

namespace Automata

namespace NFA

variable {A : NFA}

/-- `A` can read the tape from `q` and end in a final state. -/
def AcceptsFrom (A : NFA) (q : State) (tape : List Char) : Prop :=
  ∃ p, A.Path q tape p ∧ p ∈ A.finals

theorem acceptsFrom_nil_iff {q : State} : A.AcceptsFrom q [] ↔ q ∈ A.finals := by
  refine ⟨?_, fun h => ?_⟩
  · rintro ⟨p, hp, hf⟩
    cases hp
    exact hf
  · exact ⟨q, .nil q, h⟩

theorem acceptsFrom_cons_iff {q : State} {a : Char} {w : List Char} :
    A.AcceptsFrom q (a :: w) ↔ ∃ r, (⟨q, a, r⟩ : Edge) ∈ A.edges ∧ A.AcceptsFrom r w := by
  refine ⟨?_, ?_⟩
  · rintro ⟨p, hp, hf⟩
    cases hp with
    | cons he hp => exact ⟨_, he, p, hp, hf⟩
  · rintro ⟨r, he, p, hp, hf⟩
    exact ⟨p, .cons he hp, hf⟩

theorem isFinal_iff {q : State} : A.isFinal q = true ↔ q ∈ A.finals := by
  rw [isFinal, decide_eq_true_iff]

theorem mem_next {q p : State} {a : Char} :
    p ∈ A.next q a ↔ (⟨q, a, p⟩ : Edge) ∈ A.edges := Relation.mem_targets

theorem path_cons_iff {p q : State} {a : Char} {w : List Char} :
    A.Path p (a :: w) q ↔ ∃ r, (⟨p, a, r⟩ : Edge) ∈ A.edges ∧ A.Path r w q := by
  refine ⟨fun h => ?_, fun ⟨_, he, h⟩ => .cons he h⟩
  cases h with
  | cons he h => exact ⟨_, he, h⟩

/-- Paths can be joined. -/
theorem Path.append {p r q : State} {v w : List Char} (h : A.Path p v r) (h' : A.Path r w q) :
    A.Path p (v ++ w) q := by
  induction h with
  | nil => exact h'
  | cons he _ ih => exact .cons he (ih h')

end NFA

namespace DFA

variable {D : DFA}

theorem next?_eq_some_iff {q p : State} {a : Char} :
    D.next? q a = some p ↔ (⟨q, a, p⟩ : Edge) ∈ D.edges :=
  FunctionalRelation.target?_eq_some_iff

/-! ## Positions -/

/-- The position after one more symbol.  A run that is stuck stays stuck. -/
def move (D : DFA) (p : Option State) (a : Char) : Option State := p.bind (D.next? · a)

/-- The position after a tape. -/
def after (D : DFA) (p : Option State) (tape : List Char) : Option State := tape.foldl D.move p

@[simp] theorem move_none (a : Char) : D.move none a = none := rfl

@[simp] theorem move_some (q : State) (a : Char) : D.move (some q) a = D.next? q a := rfl

@[simp] theorem after_nil (p : Option State) : D.after p [] = p := rfl

@[simp] theorem after_cons (p : Option State) (a : Char) (w : List Char) :
    D.after p (a :: w) = D.after (D.move p a) w := rfl

theorem after_append (p : Option State) (v w : List Char) :
    D.after p (v ++ w) = D.after (D.after p v) w := List.foldl_append

@[simp] theorem after_none (w : List Char) : D.after none w = none := by
  induction w with
  | nil => rfl
  | cons a w ih => exact ih

@[simp] theorem acceptsAt_none : D.acceptsAt none = false := rfl

@[simp] theorem acceptsAt_some (q : State) : D.acceptsAt (some q) = D.isFinal q := rfl

/-- Outside the alphabet every run gets stuck. -/
theorem move_of_not_mem (hD : D.WellFormed) {a : Char} (ha : a ∉ D.alphabet) (x : Option State) :
    D.move x a = none := by
  cases h : D.move x a with
  | none => rfl
  | some p =>
    obtain ⟨q, rfl, hq⟩ := Option.bind_eq_some_iff.1 h
    exact absurd (hD.symbol_mem _ (next?_eq_some_iff.1 hq)) ha

/-- Whether `D` accepts the rest of a tape at a position.  Positions that agree on every rest are
the ones that minimization merges. -/
def future (D : DFA) (p : Option State) (tape : List Char) : Bool := D.acceptsAt (D.after p tape)

@[simp] theorem future_nil (p : Option State) : D.future p [] = D.acceptsAt p := rfl

theorem future_cons (p : Option State) (a : Char) (w : List Char) :
    D.future p (a :: w) = D.future (D.move p a) w := rfl

theorem future_append (p : Option State) (v w : List Char) :
    D.future p (v ++ w) = D.future (D.after p v) w := by
  rw [future, after_append, future]

@[simp] theorem future_none (w : List Char) : D.future none w = false := by
  rw [future, after_none, acceptsAt_none]

/-- Positions are the ends of paths. -/
theorem after_eq_some_iff {q p : State} {w : List Char} :
    D.after (some q) w = some p ↔ D.toNFA.Path q w p := by
  induction w generalizing q with
  | nil =>
    rw [after_nil, Option.some_inj]
    refine ⟨?_, fun h => ?_⟩
    · rintro rfl
      exact .nil q
    · cases h
      rfl
  | cons a w ih =>
    rw [after_cons, move_some]
    refine ⟨fun h => ?_, fun h => ?_⟩
    · cases hr : D.next? q a with
      | none =>
        rw [hr, after_none] at h
        cases h
      | some r =>
        rw [hr] at h
        exact .cons (next?_eq_some_iff.1 hr) (ih.1 h)
    · cases h with
      | cons he hp =>
        rw [next?_eq_some_iff.2 he]
        exact ih.2 hp

/-! ## What a run answers -/

/-- A run that reads the whole tape ends with its position. -/
theorem after_of_runFrom_complete {q : State} {w : List Char} {l : List State}
    (h : D.runFrom q w = .complete l) : ∃ p, l.getLast? = some p ∧ D.after (some q) w = some p := by
  induction w generalizing q l with
  | nil =>
    cases h
    exact ⟨q, rfl, rfl⟩
  | cons a w ih =>
    rw [runFrom] at h
    split at h
    · cases h
    · rename_i r hr
      rw [after_cons, move_some, hr]
      cases hrun : D.runFrom r w with
      | stuck m =>
        rw [hrun] at h
        cases h
      | complete m =>
        rw [hrun] at h
        cases h
        obtain ⟨p, hp, hafter⟩ := ih hrun
        exact ⟨p, by rw [List.getLast?_cons, hp, Option.getD_some], hafter⟩

theorem after_of_runFrom_stuck {q : State} {w : List Char} {l : List State}
    (h : D.runFrom q w = .stuck l) : D.after (some q) w = none := by
  induction w generalizing q l with
  | nil => cases h
  | cons a w ih =>
    rw [runFrom] at h
    rw [after_cons, move_some]
    split at h
    · rename_i hr
      rw [hr, after_none]
    · rename_i r hr
      rw [hr]
      cases hrun : D.runFrom r w with
      | complete m =>
        rw [hrun] at h
        cases h
      | stuck m => exact ih hrun

/-- A run reads the whole tape exactly if it still has a position then. -/
theorem run_complete_iff {w : List Char} :
    (∃ l, D.run w = .complete l) ↔ (D.after (some D.start) w).isSome = true := by
  refine ⟨?_, fun h => ?_⟩
  · rintro ⟨l, h⟩
    obtain ⟨p, _, hp⟩ := after_of_runFrom_complete h
    rw [hp, Option.isSome_some]
  · cases hrun : D.run w with
    | complete l => exact ⟨l, rfl⟩
    | stuck l =>
      rw [after_of_runFrom_stuck hrun] at h
      cases h

/-- A run gets stuck exactly if it has no position left. -/
theorem run_stuck_iff {w : List Char} :
    (∃ l, D.run w = .stuck l) ↔ D.after (some D.start) w = none := by
  refine ⟨?_, fun h => ?_⟩
  · rintro ⟨l, h⟩
    exact after_of_runFrom_stuck h
  · cases hrun : D.run w with
    | complete l =>
      obtain ⟨p, _, hp⟩ := after_of_runFrom_complete hrun
      rw [hp] at h
      cases h
    | stuck l => exact ⟨l, rfl⟩

/-- **A tape is accepted exactly if its position accepts.** -/
theorem accepts_eq (w : List Char) : D.accepts w = D.future (some D.start) w := by
  rw [accepts, future]
  cases hrun : D.run w with
  | complete l =>
    obtain ⟨p, hl, hp⟩ := after_of_runFrom_complete hrun
    simp only [hl, hp, acceptsAt_some, Option.any_some]
  | stuck l => rw [after_of_runFrom_stuck hrun, acceptsAt_none]

/-- Acceptance is what it is for the moves without regard to their determinism. -/
theorem accepts_iff {w : List Char} : D.accepts w = true ↔ D.toNFA.Accepts w := by
  rw [accepts_eq, future, acceptsAt, Option.any_eq_true]
  exact exists_congr fun q => and_congr after_eq_some_iff NFA.isFinal_iff

/-! ## Simulation -/

/-- **A map that commutes with single moves commutes with runs.**  The things that are mapped move
by `step`, and need to be looked at only as long as they satisfy the invariant `P`. -/
theorem after_of_simulation {α : Type} {step : α → Char → α} {name : α → Option State}
    {P : α → Prop} (hname : ∀ x, P x → ∀ a, D.move (name x) a = name (step x a))
    (hstep : ∀ x, P x → ∀ a, P (step x a)) {x : α} (hx : P x) (w : List Char) :
    D.after (name x) w = name (w.foldl step x) := by
  induction w generalizing x with
  | nil => rfl
  | cons a w ih => rw [after_cons, hname x hx a, List.foldl_cons, ih (hstep x hx a)]

end DFA

end Automata
