import Automata.Proofs.Obtainable
import Mathlib

/-!
# What Moore machines put out

A Moore machine leaves out the states without an output when it puts out what a run has met.  It is
the check at the time the machine was made that keeps this from happening: a run meets states that
can be reached and no others, and all of these have an output.  So outputs and states go side by
side, one output for each state, whether the tape is read to its end or not.

## What is here

* `DFA.StuckAfter` — the part of a tape that can be read before a symbol has no move.
* `DFA.path_of_runFrom_complete`, `DFA.exists_stuck_of_runFrom`, `DFA.runFrom_append_cons` — the
  states that a run meets, and where a run gets stuck.
* `Moore.Obtainable.exists_outputAt` — every reachable state has an output.
* `Moore.Obtainable.outputs_follow_run` — **every state that is met is answered by one output**, in
  the order of the run.
-/

set_option autoImplicit false

namespace Automata

/-! ## Runs state by state -/

namespace DFA

variable {D : DFA} {q p : State} {a : Char} {w v : List Char} {l : List State}

/-- Of the tape no more than `read` can be read: the state that is reached then has no move along
the symbol behind it. -/
def StuckAfter (D : DFA) (read tape : List Char) : Prop :=
  ∃ q a rest, tape = read ++ a :: rest ∧ D.toNFA.Path D.start read q ∧
    ∀ p, (⟨q, a, p⟩ : Edge) ∉ D.edges

theorem next?_eq_none_iff : D.next? q a = none ↔ ∀ p, (⟨q, a, p⟩ : Edge) ∉ D.edges := by
  simp only [Option.eq_none_iff_forall_ne_some, ne_eq, next?_eq_some_iff]

/-- A run that reads the whole tape meets the states on its path, the first of them before
anything is read. -/
theorem path_of_runFrom_complete (h : D.runFrom q w = .complete l) : l.length = w.length + 1 ∧
    ∀ i ≤ w.length, ∃ p, D.toNFA.Path q (w.take i) p ∧ l[i]? = some p := by
  induction w generalizing q l with
  | nil =>
    cases h
    refine ⟨rfl, fun i hi => ?_⟩
    obtain rfl := Nat.le_zero.1 hi
    exact ⟨q, .nil q, rfl⟩
  | cons a w ih =>
    rw [runFrom] at h
    split at h
    · cases h
    · rename_i r hr
      cases hrun : D.runFrom r w with
      | stuck m =>
        rw [hrun] at h
        cases h
      | complete m =>
        rw [hrun] at h
        cases h
        obtain ⟨hlen, hpath⟩ := ih hrun
        refine ⟨congrArg (· + 1) hlen, fun i hi => ?_⟩
        cases i with
        | zero => exact ⟨q, .nil q, rfl⟩
        | succ i =>
          obtain ⟨p, hp, hi⟩ := hpath i (Nat.le_of_succ_le_succ hi)
          exact ⟨p, .cons (next?_eq_some_iff.1 hr) hp, hi⟩

/-- A run that gets stuck has read a part of the tape, and would have met the same states if there
had been no more. -/
theorem exists_stuck_of_runFrom (h : D.runFrom q w = .stuck l) : ∃ v a rest p,
    w = v ++ a :: rest ∧ D.toNFA.Path q v p ∧ D.next? p a = none ∧ D.runFrom q v = .complete l := by
  induction w generalizing q l with
  | nil => cases h
  | cons a w ih =>
    rw [runFrom] at h
    split at h
    · rename_i hr
      cases h
      exact ⟨[], a, w, q, rfl, .nil q, hr, rfl⟩
    · rename_i r hr
      cases hrun : D.runFrom r w with
      | complete m =>
        rw [hrun] at h
        cases h
      | stuck m =>
        rw [hrun] at h
        cases h
        obtain ⟨v, b, rest, p, rfl, hpath, hnone, hv⟩ := ih hrun
        refine ⟨a :: v, b, rest, p, rfl, .cons (next?_eq_some_iff.1 hr) hpath, hnone, ?_⟩
        rw [runFrom, hr]
        exact congrArg (Trace.push q) hv

/-- What follows a symbol without a move changes nothing but the end of the run. -/
theorem runFrom_append_cons (rest : List Char) (h : D.toNFA.Path q v p)
    (ha : D.next? p a = none) :
    ∃ l, D.runFrom q v = .complete l ∧ D.runFrom q (v ++ a :: rest) = .stuck l := by
  induction h with
  | nil q => exact ⟨[q], rfl, by rw [List.nil_append, runFrom, ha]⟩
  | @cons q r p b v he _ ih =>
    obtain ⟨l, hv, hstuck⟩ := ih ha
    refine ⟨q :: l, ?_, ?_⟩
    · rw [runFrom, next?_eq_some_iff.2 he]
      exact congrArg (Trace.push q) hv
    · rw [List.cons_append, runFrom, next?_eq_some_iff.2 he]
      exact congrArg (Trace.push q) hstuck

/-- A run is stuck exactly if there is a place where it gets stuck. -/
theorem exists_stuckAfter_iff {tape : List Char} :
    (∃ visited, D.run tape = .stuck visited) ↔ ∃ read, D.StuckAfter read tape := by
  refine ⟨?_, ?_⟩
  · rintro ⟨visited, h⟩
    obtain ⟨v, a, rest, p, rfl, hpath, hnone, _⟩ := exists_stuck_of_runFrom h
    exact ⟨v, p, a, rest, rfl, hpath, next?_eq_none_iff.1 hnone⟩
  · rintro ⟨read, p, a, rest, rfl, hpath, hnone⟩
    obtain ⟨l, _, hstuck⟩ := runFrom_append_cons rest hpath (next?_eq_none_iff.2 hnone)
    exact ⟨l, hstuck⟩

/-- A run meets reachable states only. -/
theorem mem_reachable_of_mem_visited {tape : List Char} (h : q ∈ (D.run tape).visited) :
    q ∈ D.reachable := by
  have hcomplete : ∀ {w l}, D.run w = .complete l → q ∈ l → q ∈ D.reachable := fun hrun hq => by
    obtain ⟨hlen, hpath⟩ := path_of_runFrom_complete hrun
    obtain ⟨i, hi, hiq⟩ := List.mem_iff_getElem.1 hq
    obtain ⟨p, hp, hip⟩ := hpath i (by omega)
    rw [List.getElem?_eq_getElem hi, hiq, Option.some_inj] at hip
    exact NFA.mem_reachable_iff.2 ⟨_, hip ▸ hp⟩
  cases hrun : D.run tape with
  | complete l =>
    rw [hrun] at h
    exact hcomplete hrun h
  | stuck l =>
    rw [hrun] at h
    obtain ⟨v, _, _, _, _, _, _, hv⟩ := exists_stuck_of_runFrom hrun
    exact hcomplete hv h

end DFA

/-! ## Outputs state by state -/

/-- If everything that is met has an answer, then no answer is left out. -/
theorem map_some_filterMap {α β : Type} {f : α → Option β} {l : List α}
    (h : ∀ a ∈ l, ∃ b, f a = some b) : (l.filterMap f).map some = l.map f := by
  induction l with
  | nil => rfl
  | cons a l ih =>
    obtain ⟨⟨b, hb⟩, hl⟩ := List.forall_mem_cons.1 h
    rw [List.filterMap_cons_some hb, List.map_cons, List.map_cons, hb, ih hl]

namespace Moore

variable {m : Moore} {tape : List Char} {q : State} {visited : List State}

theorem outputs_of_run_complete (h : m.automaton.run tape = .complete visited) :
    m.outputs tape = .complete (visited.filterMap m.outputAt) := by
  rw [outputs, h]
  rfl

theorem outputs_of_run_stuck (h : m.automaton.run tape = .stuck visited) :
    m.outputs tape = .stuck (visited.filterMap m.outputAt) := by
  rw [outputs, h]
  rfl

/-- Every state that can be reached has an output.  It was there when the machine was made, and only
the outputs for unknown states were dropped. -/
theorem Obtainable.exists_outputAt (hm : m.Obtainable) (hq : q ∈ m.automaton.reachable) :
    ∃ a, m.outputAt q = some a := by
  have hstate : q ∈ m.automaton.states := NFA.reachable_subset hm.automaton.wellFormed hq
  cases hm with
  | described _ hok =>
    obtain ⟨D, _, hD⟩ := bind_eq_ok_iff.1 hok
    obtain ⟨hall, rfl⟩ := ofDFA_eq_ok_iff.1 hD
    rw [outputAt, FinMap.get?_filterKeys, decide_eq_true hstate, if_pos rfl]
    exact hall q hq

/-- The outputs of a run that reads the whole tape. -/
theorem Obtainable.outputs_of_complete (hm : m.Obtainable)
    (h : m.automaton.run tape = .complete visited) :
    ∃ out, m.outputs tape = .complete out ∧ out.length = tape.length + 1 ∧
      ∀ i ≤ tape.length, ∃ q, m.automaton.toNFA.Path m.automaton.start (tape.take i) q ∧
        out[i]? = m.outputAt q := by
  have hall : ∀ q ∈ visited, ∃ a, m.outputAt q = some a := by
    intro q hq
    have hmet : q ∈ (m.automaton.run tape).visited := by
      rw [h]
      exact hq
    exact hm.exists_outputAt (DFA.mem_reachable_of_mem_visited hmet)
  have hmap := map_some_filterMap hall
  obtain ⟨hlen, hpath⟩ := DFA.path_of_runFrom_complete h
  have hlen' : (visited.filterMap m.outputAt).length = visited.length := by
    rw [← List.length_map some, hmap, List.length_map]
  refine ⟨_, outputs_of_run_complete h, hlen'.trans hlen, fun i hi => ?_⟩
  obtain ⟨q, hq, hvisited⟩ := hpath i hi
  refine ⟨q, hq, ?_⟩
  have hi' := congrArg (·[i]?) hmap
  simp only [List.getElem?_map, hvisited, Option.map_some] at hi'
  obtain ⟨a, ha, hsome⟩ := Option.map_eq_some_iff.1 hi'
  rw [ha, hsome]

/-- **Every state that is met is answered by one output.**  No state that a run meets is without
one.  A tape that is read to its end gives one output more than it has symbols, each of them the
output of the state that is reached at its place; a tape that cannot be read further gives the
outputs for the part that was read. -/
theorem Obtainable.outputs_follow_run (hm : m.Obtainable) :
    (∀ tape, ∀ q ∈ (m.automaton.run tape).visited, ∃ a, m.outputAt q = some a) ∧
    (∀ tape visited, m.automaton.run tape = .complete visited →
      ∃ out, m.outputs tape = .complete out ∧ out.length = tape.length + 1 ∧
        ∀ i ≤ tape.length, ∃ q, m.automaton.toNFA.Path m.automaton.start (tape.take i) q ∧
          out[i]? = m.outputAt q) ∧
    (∀ tape, (∃ visited, m.automaton.run tape = .stuck visited) ↔
      ∃ read, m.automaton.StuckAfter read tape) ∧
    ∀ tape read, m.automaton.StuckAfter read tape →
      ∃ out, m.outputs tape = .stuck out ∧ m.outputs read = .complete out ∧
        out.length = read.length + 1 := by
  refine ⟨fun tape q hq => hm.exists_outputAt (DFA.mem_reachable_of_mem_visited hq),
    fun tape visited h => hm.outputs_of_complete h, fun tape => DFA.exists_stuckAfter_iff, ?_⟩
  rintro tape read ⟨p, a, rest, rfl, hpath, hnone⟩
  obtain ⟨l, hread, hstuck⟩ :=
    DFA.runFrom_append_cons rest hpath (DFA.next?_eq_none_iff.2 hnone)
  obtain ⟨out, hout, hlen, _⟩ := hm.outputs_of_complete hread
  refine ⟨out, ?_, hout, hlen⟩
  have hsame := (outputs_of_run_complete hread).symm.trans hout
  rw [outputs_of_run_stuck hstuck, Trace.complete.inj hsame]

/-- There is no way to `u`, so it needs no output. -/
def swinging : Moore where
  automaton :=
    { states := FinSet.ofList ["s", "t", "u"]
      alphabet := FinSet.ofList ['a', 'b']
      start := "s"
      finals := ∅
      edges := FinSet.ofList [⟨"s", 'a', "t"⟩, ⟨"t", 'a', "s"⟩, ⟨"u", 'b', "s"⟩]
      functional := by unfold Relation.IsFunctional; decide }
  output := FinMap.ofList [("s", 'x'), ("t", 'y')]

/-- The output for `v` is dropped, as there is no such state. -/
theorem swinging_obtainable : swinging.Obtainable := by
  have hd : (Description.empty.addAll [.edge ⟨"s", 'a', "t"⟩, .edge ⟨"t", 'a', "s"⟩,
      .edge ⟨"u", 'b', "s"⟩, .start "s"]).toDFA = .ok swinging.automaton :=
    Description.toDFA_eq_ok_iff.2 rfl
  have hm : ofDFA swinging.automaton (FinMap.ofList [("v", 'z'), ("t", 'y'), ("s", 'x')])
      = .ok swinging := by
    refine ofDFA_eq_ok_iff.2 ⟨fun q hq => ?_, by decide⟩
    have hreachable : swinging.automaton.reachable.toList = ["s", "t"] := by cbv
    have hall : ∀ q ∈ ["s", "t"],
        ((FinMap.ofList [("v", 'z'), ("t", 'y'), ("s", 'x')]).get? q).isSome = true := by decide
    exact Option.isSome_iff_exists.1 (hall q (hreachable ▸ hq))
  exact .described (.addAll .empty _) (bind_eq_ok_iff.2 ⟨_, hd, hm⟩)

theorem swinging_outputs_follow_run :
    (swinging.Obtainable ∧ ∃ a, swinging.outputAt "t" = some a) ∧
    (swinging.automaton.run ['a', 'a'] = .complete ["s", "t", "s"] ∧
      ∃ out, swinging.outputs ['a', 'a'] = .complete out ∧ out.length = 3 ∧
        ∀ i ≤ 2, ∃ q, swinging.automaton.toNFA.Path "s" (['a', 'a'].take i) q ∧
          out[i]? = swinging.outputAt q) ∧
    swinging.automaton.StuckAfter ['a'] ['a', 'b', 'a'] ∧
      ∃ out, swinging.outputs ['a', 'b', 'a'] = .stuck out ∧
        swinging.outputs ['a'] = .complete out ∧ out.length = 2 := by
  have hm := swinging_obtainable
  have hrun : swinging.automaton.run ['a', 'a'] = .complete ["s", "t", "s"] := by decide
  have hstuck : swinging.automaton.StuckAfter ['a'] ['a', 'b', 'a'] :=
    ⟨"t", 'b', ['a'], rfl, .cons (by decide) (.nil "t"), DFA.next?_eq_none_iff.1 (by decide)⟩
  refine ⟨⟨hm, hm.outputs_follow_run.1 ['a'] "t" (by decide)⟩, ⟨hrun, ?_⟩, hstuck, ?_⟩
  · exact hm.outputs_follow_run.2.1 ['a', 'a'] _ hrun
  · exact hm.outputs_follow_run.2.2.2 ['a', 'b', 'a'] ['a'] hstuck

end Moore

end Automata
