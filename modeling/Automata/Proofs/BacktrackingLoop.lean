import Automata.Proofs.Acceptance
import Mathlib.Data.Set.Card
import Mathlib.Logic.Function.Iterate

/-!
# The backtracking loop and the tree of all runs

The loop keeps a stack of states, each with the position on the tape that it was entered at.  The
stack grows while it is consumed, and one state may stand on it any number of times, so that neither
its height nor a set of visited states shows that the loop ends.  What shrinks is the part of the
tree of all runs that lies below the stack: a pass takes one run off, and puts back exactly its
continuations.

## What is here

* `NFA.IsRun` — a run, as the sequence of states that it enters, and `NFA.runs` — the runs that read
  a first part of a tape, each of them once and before its continuations.
* `NFA.Backtracking` — what the loop remembers; `NFA.backtrack` — one pass of it, and
  `NFA.backtracked` — where it stands after some passes.
* `NFA.Backtracking.Sound` — what has been taken off the stack, followed by all runs that continue
  what is still on it, is the list of all runs; `NFA.Backtracking.Sound.backtrack` — **a pass keeps
  this.**
* `NFA.EachRunOnce` — what is taken off the stack, and when the loop ends; `backtracking_exact` —
  **every run is taken off once, and the loop ends.**
-/

set_option autoImplicit false

namespace Automata

namespace NFA

variable {A : NFA} {q p : State} {a : Char} {w tape : List Char} {l : List State} {i : Nat}

/-! ## Runs -/

/-- `A.IsRun q w l` says that `A`, when it reads `w` from `q`, can enter the states `l` one after the
other. -/
inductive IsRun (A : NFA) : State → List Char → List State → Prop where
  /-- Reading nothing enters no state. -/
  | nil (q : State) : IsRun A q [] []
  /-- A move followed by a run. -/
  | cons {q p : State} {a : Char} {w : List Char} {l : List State} :
      (⟨q, a, p⟩ : Edge) ∈ A.edges → IsRun A p w l → IsRun A q (a :: w) (p :: l)

theorem isRun_nil_iff : A.IsRun q [] l ↔ l = [] := by
  refine ⟨fun h => ?_, ?_⟩
  · cases h
    rfl
  · rintro rfl
    exact .nil q

theorem isRun_cons_iff : A.IsRun q (a :: w) l ↔
    ∃ p m, l = p :: m ∧ (⟨q, a, p⟩ : Edge) ∈ A.edges ∧ A.IsRun p w m := by
  constructor
  · intro h
    cases h with
    | cons he h => exact ⟨_, _, rfl, he, h⟩
  · rintro ⟨p, m, rfl, he, h⟩
    exact .cons he h

/-- A run enters one state for each symbol. -/
theorem IsRun.length_eq (h : A.IsRun q w l) : l.length = w.length := by
  induction h with
  | nil q => rfl
  | cons _ _ ih => rw [List.length_cons, List.length_cons, ih]

/-- Runs end where paths do. -/
theorem exists_isRun_iff_path : (∃ l, A.IsRun q w l ∧ l.getLastD q = p) ↔ A.Path q w p := by
  induction w generalizing q with
  | nil =>
    simp only [isRun_nil_iff, exists_eq_left, List.getLastD_nil]
    refine ⟨?_, fun h => ?_⟩
    · rintro rfl
      exact .nil q
    · cases h
      rfl
  | cons a w ih =>
    rw [path_cons_iff]
    constructor
    · rintro ⟨l, hl, hlast⟩
      obtain ⟨r, m, rfl, he, hm⟩ := isRun_cons_iff.1 hl
      exact ⟨r, he, ih.1 ⟨m, hm, by rwa [List.getLastD_cons] at hlast⟩⟩
    · rintro ⟨r, he, hp⟩
      obtain ⟨m, hm, hlast⟩ := ih.2 hp
      exact ⟨r :: m, .cons he hm, by rwa [List.getLastD_cons]⟩

/-- The runs from a state that read a first part of a word.  A run stands before its continuations,
and of two choices the greater one comes first. -/
def runs (A : NFA) (q : State) : List Char → List (List State)
  | [] => [[]]
  | a :: w => [] :: (A.next q a).toList.reverse.flatMap fun p => (runs A p w).map (p :: ·)

/-- **All runs on first parts of the word are listed**, and nothing else is. -/
theorem mem_runs_iff :
    l ∈ A.runs q w ↔ l.length ≤ w.length ∧ A.IsRun q (w.take l.length) l := by
  induction w generalizing q l with
  | nil =>
    rw [runs, List.mem_singleton, List.take_nil, isRun_nil_iff, List.length_nil]
    refine ⟨fun h => ⟨?_, h⟩, And.right⟩
    rw [h, List.length_nil]
  | cons a w ih =>
    cases l with
    | nil => simp [runs, isRun_nil_iff]
    | cons p l => simp [runs, ih, isRun_cons_iff, mem_next, and_left_comm]

/-- **No run is listed twice.** -/
theorem nodup_runs : (A.runs q w).Nodup := by
  induction w generalizing q with
  | nil => exact List.nodup_singleton []
  | cons a w ih =>
    refine List.nodup_cons.2 ⟨by simp, List.nodup_flatMap.2 ⟨fun p _ => ?_, ?_⟩⟩
    · exact ih.map fun _ _ h => (List.cons.inj h).2
    · refine (List.nodup_reverse.2 (A.next q a).nodup).imp fun {p p'} hne l hl hl' => ?_
      obtain ⟨_, _, rfl⟩ := List.mem_map.1 hl
      obtain ⟨_, _, heq⟩ := List.mem_map.1 hl'
      exact hne (List.cons.inj heq).1.symm

/-! ## The loop -/

/-- What the loop remembers: the runs that have been taken off the stack and those that are on it,
each as the state it has come to and the position of that state on the tape. -/
structure Backtracking where
  /-- What has been taken off the stack so far, in this order. -/
  popped : List (State × Nat)
  /-- The stack, with the run that was put on it last in front. -/
  pending : List (State × Nat)
  /-- The answer, once there is one. -/
  answer : Option Bool
deriving DecidableEq

/-- One pass of the loop.  The run on top is taken off the stack.  At the end of the tape it may give
the answer; before that, its continuations are put on the stack in ascending order.  If the stack is
empty, there is no run that accepts, and once there is an answer nothing happens any more. -/
def backtrack (A : NFA) (tape : List Char) (x : Backtracking) : Backtracking :=
  if x.answer.isSome then x
  else
    match x.pending with
    | [] => { x with answer := some false }
    | (q, i) :: pending =>
      match tape[i]? with
      | none =>
        { popped := x.popped ++ [(q, i)]
          pending := pending
          answer := if A.isFinal q then some true else none }
      | some a =>
        { popped := x.popped ++ [(q, i)]
          pending := ((A.next q a).toList.reverse.map fun p => (p, i + 1)) ++ pending
          answer := none }

/-- Nothing happens once there is an answer. -/
theorem backtrack_of_answer {x : Backtracking} {b : Bool} (h : x.answer = some b) :
    A.backtrack tape x = x := by
  rw [backtrack, h, Option.isSome_some, if_pos rfl]

theorem backtrack_nil (popped : List (State × Nat)) :
    A.backtrack tape ⟨popped, [], none⟩ = ⟨popped, [], some false⟩ := rfl

theorem backtrack_of_getElem?_none {popped pending : List (State × Nat)} (h : tape[i]? = none) :
    A.backtrack tape ⟨popped, (q, i) :: pending, none⟩ =
      ⟨popped ++ [(q, i)], pending, if A.isFinal q then some true else none⟩ := by
  simp [backtrack, h]

theorem backtrack_of_getElem?_some {popped pending : List (State × Nat)} (h : tape[i]? = some a) :
    A.backtrack tape ⟨popped, (q, i) :: pending, none⟩ =
      ⟨popped ++ [(q, i)], ((A.next q a).toList.reverse.map fun p => (p, i + 1)) ++ pending,
        none⟩ := by
  simp [backtrack, h]

theorem popped_backtrack (popped pending : List (State × Nat)) :
    (A.backtrack tape ⟨popped, (q, i) :: pending, none⟩).popped = popped ++ [(q, i)] := by
  cases h : tape[i]? with
  | none => rw [backtrack_of_getElem?_none h]
  | some a => rw [backtrack_of_getElem?_some h]

/-- What the loop remembers after `k` passes. -/
def backtracked (A : NFA) (tape : List Char) (k : Nat) : Backtracking :=
  (A.backtrack tape)^[k] ⟨[], [(A.start, 0)], none⟩

theorem backtracked_succ (k : Nat) :
    A.backtracked tape (k + 1) = A.backtrack tape (A.backtracked tape k) :=
  Function.iterate_succ_apply' _ _ _

theorem backtracked_of_answer {k m : Nat} {b : Bool} (h : (A.backtracked tape k).answer = some b)
    (hkm : k ≤ m) : A.backtracked tape m = A.backtracked tape k := by
  induction m, hkm using Nat.le_induction with
  | base => rfl
  | succ m _ ih => rw [backtracked_succ, ih, backtrack_of_answer h]

/-! ## What is left to do -/

/-- The ends of the runs that continue a pending one, itself included, each with its position. -/
def ends (A : NFA) (tape : List Char) (run : State × Nat) : List (State × Nat) :=
  (A.runs run.1 (tape.drop run.2)).map fun l => (l.getLastD run.1, run.2 + l.length)

/-- The pending runs with what is left of the tape. -/
def remaining (tape : List Char) (pending : List (State × Nat)) : List (State × List Char) :=
  pending.map fun run => (run.1, tape.drop run.2)

theorem drop_of_getElem?_none (h : tape[i]? = none) : tape.drop i = [] :=
  List.drop_eq_nil_iff.2 (List.getElem?_eq_none_iff.1 h)

theorem drop_of_getElem?_some (h : tape[i]? = some a) : tape.drop i = a :: tape.drop (i + 1) := by
  obtain ⟨hi, rfl⟩ := List.getElem?_eq_some_iff.1 h
  exact List.drop_eq_getElem_cons hi

/-- At the end of the tape a run has no continuation. -/
theorem ends_of_none (h : tape[i]? = none) : A.ends tape (q, i) = [(q, i)] := by
  simp [ends, drop_of_getElem?_none h, runs]

/-- Before the end of the tape, it is continued by the runs that continue its continuations. -/
theorem ends_of_some (h : tape[i]? = some a) : A.ends tape (q, i) =
    (q, i) :: ((A.next q a).toList.reverse.map fun p => (p, i + 1)).flatMap (A.ends tape) := by
  have hcons : ∀ p l, ((p :: l).getLastD q, i + (p :: l).length) = (l.getLastD p, i + 1 + l.length) :=
    fun p l => by rw [List.getLastD_cons, List.length_cons, Nat.add_assoc, Nat.add_comm 1]
  rw [ends, drop_of_getElem?_some h, runs, List.map_cons, List.map_flatMap, List.flatMap_map]
  simp only [List.map_map, Function.comp_def, hcons]
  rfl

/-- What is known of the loop at any time. -/
structure Backtracking.Sound (A : NFA) (tape : List Char) (x : Backtracking) : Prop where
  /-- What was taken off the stack, followed by all that continues what is on it, is the list of all
  runs on first parts of the tape. -/
  account : x.popped ++ x.pending.flatMap (A.ends tape) = A.ends tape (A.start, 0)
  /-- The answer is right, and as long as there is none the pending runs decide it. -/
  verdict : A.acceptsBacktracking tape = x.answer.getD (A.search (remaining tape x.pending))
  /-- The loop gives up only if nothing is pending. -/
  exhausted : x.answer = some false → x.pending = []

namespace Backtracking

variable {x : Backtracking}

theorem sound_start (A : NFA) (tape : List Char) :
    Sound A tape ⟨[], [(A.start, 0)], none⟩ where
  account := by simp
  verdict := rfl
  exhausted h := by cases h

/-- **A pass keeps the account of all runs.** -/
theorem Sound.backtrack (h : x.Sound A tape) : (A.backtrack tape x).Sound A tape := by
  obtain ⟨popped, pending, answer⟩ := x
  obtain ⟨haccount, hverdict, hexhausted⟩ := h
  cases answer with
  | some b => exact ⟨haccount, hverdict, hexhausted⟩
  | none =>
    cases pending with
    | nil =>
      rw [backtrack_nil]
      exact ⟨haccount, by simpa [remaining, search] using hverdict, fun _ => rfl⟩
    | cons run pending =>
      obtain ⟨q, i⟩ := run
      simp only [remaining, List.map_cons, Option.getD_none] at hverdict
      rw [List.flatMap_cons] at haccount
      cases ha : tape[i]? with
      | none =>
        rw [backtrack_of_getElem?_none ha]
        rw [ends_of_none ha, ← List.append_assoc] at haccount
        rw [drop_of_getElem?_none ha, search] at hverdict
        refine ⟨haccount, ?_, ?_⟩
        · rw [hverdict]
          cases A.isFinal q <;> rfl
        · cases A.isFinal q <;> simp
      | some a =>
        rw [backtrack_of_getElem?_some ha]
        rw [ends_of_some ha, List.cons_append, ← List.flatMap_append] at haccount
        rw [drop_of_getElem?_some ha, search] at hverdict
        refine ⟨?_, ?_, fun h => by cases h⟩
        · rwa [List.append_assoc, List.singleton_append]
        · simpa [remaining, Function.comp_def] using hverdict

end Backtracking

theorem sound_backtracked (A : NFA) (tape : List Char) (k : Nat) :
    (A.backtracked tape k).Sound A tape := by
  induction k with
  | zero => exact Backtracking.sound_start A tape
  | succ k ih => exact backtracked_succ k ▸ ih.backtrack

/-! ## When the loop ends -/

/-- As long as there is no answer, each pass takes one run off the stack. -/
theorem length_popped_backtracked (k : Nat) (h : (A.backtracked tape k).answer = none) :
    (A.backtracked tape k).popped.length = k := by
  induction k with
  | zero => rfl
  | succ k ih =>
    rw [backtracked_succ] at h ⊢
    generalize A.backtracked tape k = x at h ih ⊢
    obtain ⟨popped, pending, answer⟩ := x
    cases answer with
    | some b => cases h
    | none =>
      cases pending with
      | nil => cases h
      | cons run pending =>
        obtain ⟨q, i⟩ := run
        rw [popped_backtrack, List.length_append, ih rfl, List.length_singleton]

theorem length_ends_start (A : NFA) (tape : List Char) :
    (A.ends tape (A.start, 0)).length = (A.runs A.start tape).length := by
  rw [ends, List.length_map, List.drop_zero]

/-- **The loop ends**, after at most one pass for each run and one more. -/
theorem backtracked_ends {k : Nat} (h : (A.runs A.start tape).length < k) :
    (A.backtracked tape k).answer = some (A.acceptsBacktracking tape) := by
  have hsound := A.sound_backtracked tape k
  cases hanswer : (A.backtracked tape k).answer with
  | some b => rw [hsound.verdict, hanswer, Option.getD_some]
  | none =>
    have hlen := congrArg List.length hsound.account
    rw [List.length_append, length_popped_backtracked k hanswer, length_ends_start] at hlen
    omega

/-! ## What is taken off the stack -/

/-- The runs on the first `i` symbols of the tape that end in `q`. -/
def runsTo (A : NFA) (tape : List Char) (q : State) (i : Nat) : Set (List State) :=
  {l | A.IsRun A.start (tape.take i) l ∧ l.getLastD A.start = q}

theorem mem_ends_start (h : (q, i) ∈ A.ends tape (A.start, 0)) :
    i ≤ tape.length ∧ A.Path A.start (tape.take i) q := by
  obtain ⟨l, hl, heq⟩ := List.mem_map.1 h
  rw [List.drop_zero, mem_runs_iff] at hl
  rw [Nat.zero_add, Prod.mk.injEq] at heq
  obtain ⟨rfl, rfl⟩ := heq
  exact ⟨hl.1, exists_isRun_iff_path.1 ⟨l, hl.2, rfl⟩⟩

/-- **A pair occurs among the ends as often as there are runs to it.** -/
theorem count_ends_start (hi : i ≤ tape.length) :
    ((A.ends tape (A.start, 0)).count (q, i) : ℕ∞) = (A.runsTo tape q i).encard := by
  let matching := (A.runs A.start tape).filter fun l => (l.getLastD A.start, l.length) == (q, i)
  have hcount : (A.ends tape (A.start, 0)).count (q, i) = matching.length := by
    rw [ends, List.count, List.countP_map, List.countP_eq_length_filter, List.drop_zero]
    simp only [Function.comp_def, Nat.zero_add, matching]
  have hset : A.runsTo tape q i = matching.toFinset := by
    ext l
    simp only [runsTo, Set.mem_ofPred_eq, List.coe_toFinset, matching, List.mem_filter, mem_runs_iff,
      beq_iff_eq, Prod.mk.injEq]
    constructor
    · rintro ⟨hl, hlast⟩
      have hlen : l.length = i := by rw [hl.length_eq, List.length_take_of_le hi]
      subst hlen
      exact ⟨⟨hi, hl⟩, hlast, rfl⟩
    · rintro ⟨⟨_, hl⟩, hlast, rfl⟩
      exact ⟨hl, hlast⟩
  rw [hset, Set.encard_coe_eq_coe_finsetCard, hcount,
    List.toFinset_card_of_nodup (nodup_runs.filter _)]

/-- What the loop takes off the stack, and when it ends. -/
structure EachRunOnce (A : NFA) (tape : List Char) : Prop where
  /-- The loop ends after at most one pass for each run on a first part of the tape and one more, with
  the answer of the search. -/
  ends : ∀ k, (A.runs A.start tape).length < k →
    (A.backtracked tape k).answer = some (A.acceptsBacktracking tape)
  /-- There is no other answer at any time, and nothing happens once there is one. -/
  settled : ∀ k b, (A.backtracked tape k).answer = some b →
    b = A.acceptsBacktracking tape ∧ ∀ m, k ≤ m → A.backtracked tape m = A.backtracked tape k
  /-- Until then each pass takes one pair off the stack. -/
  pops_one : ∀ k, (A.backtracked tape k).answer = none → (A.backtracked tape k).popped.length = k
  /-- What is taken off is the end of a run on as many symbols as its position says. -/
  popped_end : ∀ k q i, (q, i) ∈ (A.backtracked tape k).popped →
    i ≤ tape.length ∧ A.Path A.start (tape.take i) q
  /-- No run is taken off twice. -/
  count_le : ∀ k q i, i ≤ tape.length →
    ((A.backtracked tape k).popped.count (q, i) : ℕ∞) ≤ (A.runsTo tape q i).encard
  /-- If the answer is no, every run has been taken off. -/
  count_eq : ∀ k, (A.backtracked tape k).answer = some false → ∀ q i, i ≤ tape.length →
    ((A.backtracked tape k).popped.count (q, i) : ℕ∞) = (A.runsTo tape q i).encard

/-- **Every run is taken off the stack once, and the loop ends.**  This is so for all automata and
all tapes: the pairs that are taken off are ends of different runs on first parts of the tape, and
if the answer is no, of all of them. -/
theorem backtracking_exact (A : NFA) (tape : List Char) : A.EachRunOnce tape where
  ends _ := backtracked_ends
  settled k b h := by
    refine ⟨?_, fun m => backtracked_of_answer h⟩
    rw [(A.sound_backtracked tape k).verdict, h, Option.getD_some]
  pops_one := length_popped_backtracked
  popped_end k q i h := by
    have haccount := (A.sound_backtracked tape k).account
    exact mem_ends_start (haccount ▸ List.mem_append_left _ h)
  count_le k q i hi := by
    rw [← count_ends_start hi, ← (A.sound_backtracked tape k).account, List.count_append]
    exact_mod_cast Nat.le_add_right _ _
  count_eq k h q i hi := by
    have hsound := A.sound_backtracked tape k
    rw [← count_ends_start hi, ← hsound.account, hsound.exhausted h, List.flatMap_nil,
      List.append_nil]

end NFA

end Automata
