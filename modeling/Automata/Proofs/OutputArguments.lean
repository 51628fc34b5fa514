import Automata.CommandLine.Command
import Automata.Proofs.DerivedGrammars
import Automata.Proofs.MooreOutcomes
import Mathlib

/-!
# Outputs on the command line

The outputs of a Moore machine are given as arguments of the form `--output=state=symbol`, one for
each state.  Two readers take such an argument apart, and both of them stop at the first `=` they
come to: the one for options finds the end of the word `output` there, the one for assignments the
end of the name of the state.  A text, on the other hand, may call a state anything that has no
blank and no bar in it.  So the symbol may be `=` without any harm, but a state with `=` in its name
can be described and not be given an output.

## What is here

* `Command.assignment`, `Command.outputArgument` — an assignment, and the argument that it stands
  in.
* `Command.outputOfText_assignment_iff` — **an assignment is read back exactly if the name has no
  `=` in it**, and `Command.outputOfText_assignment_of_mem` — it is refused otherwise.
* `Command.ofArguments?_moore` — the command that is read from the arguments.
* `Description.isToken_of_mem_states` — the names that a text can give to states.
* `Description.exists_toMoore` — the machine, if every state has an output.
* `Command.run_moore`, `Command.run_moore_of_malformed` — what the command prints, and how it fails.
* `Command.machine_from_arguments` — **the machine is the one that was asked for, unless some name
  has an `=` in it; then the first of these assignments is refused.**
* `Command.equalsInName_refused` — a state that no argument gives an output to.
-/

set_option autoImplicit false

namespace Automata

open Text

/-! ## Names from a text -/

namespace Description

variable {d : Description} {D : DFA} {text : String} {p q : State} {s : Statement}
  {statements : List Statement} {l : List Char}

theorem IsName.isToken (h : IsName l) : IsToken l := ⟨h.ne_nil, h.solid, h.bar_not_mem⟩

theorem eq_of_mem_headStatements {isStart isFinal : Bool}
    (hs : s ∈ headStatements isStart isFinal q) (hp : p ∈ s.states) : p = q := by
  have hhead : s = .start q ∨ s = .final q ∨ s = .state q := by
    cases isStart <;> cases isFinal <;> simp [headStatements] at hs <;> tauto
  obtain rfl | rfl | rfl := hhead <;> simpa [Statement.states] using hp

theorem Alternatives.exists_edge (h : Alternatives q statements l) (hs : s ∈ statements) :
    ∃ e, s = .edge e := by
  induction h with
  | last _ => exact ⟨_, List.mem_singleton.1 hs⟩
  | more _ _ ih =>
    obtain rfl | hs := List.mem_cons.1 hs
    · exact ⟨_, rfl⟩
    · exact ih hs

/-- All states that a line mentions are tokens. -/
theorem Line.isToken (h : Line statements l) (hs : s ∈ statements) (hp : p ∈ s.states) :
    IsToken p.toList := by
  cases h with
  | blank => simp at hs
  | bare _ hname =>
    rw [eq_of_mem_headStatements hs hp, String.toList_ofList]
    exact hname.isToken
  | arrow hmarkers hname hgap halts =>
    obtain hs | hs := List.mem_append.1 hs
    · rw [eq_of_mem_headStatements hs hp, String.toList_ofList]
      exact hname.isToken
    · obtain ⟨e, rfl⟩ := halts.exists_edge hs
      have hspelled := halts.spelled (by rwa [String.toList_ofList]) hs
      obtain rfl | rfl : p = e.source ∨ p = e.target := by simpa [Statement.states] using hp
      · exact hspelled.source.isToken
      · exact hspelled.target

/-- **The names of states from a text are tokens.** -/
theorem isToken_of_mem_states (h : ofText text = .ok d) (hq : q ∈ d.states) :
    IsToken q.toList := by
  obtain ⟨statements, rfl, _, hsaid⟩ := exists_line_of_ofText h
  obtain ⟨s, hs, hq⟩ := (mem_states_addAll.1 hq).resolve_left FinSet.not_mem_empty
  obtain ⟨l, line, hline, hs⟩ := hsaid s hs
  exact hline.isToken hs hq

/-! ## The machine with an output for every state -/

/-- In a list that gives each state one output, this output is the last one. -/
theorem lastMention_map_iff {states : List State} {out : State → Char} {c : Char} :
    LastMention (states.map fun p => (p, out p)) q c ↔ q ∈ states ∧ c = out q := by
  have hvalue : ∀ {c}, (q, c) ∈ states.map (fun p => (p, out p)) ↔ q ∈ states ∧ c = out q := by
    intro c
    simp only [List.mem_map, Prod.mk.injEq]
    constructor
    · rintro ⟨p, hp, rfl, rfl⟩
      exact ⟨hp, rfl⟩
    · rintro ⟨hq, rfl⟩
      exact ⟨q, hq, rfl, rfl⟩
  constructor
  · rintro ⟨front, back, hsplit, _⟩
    exact hvalue.1 (hsplit ▸ List.mem_append_right _ List.mem_cons_self)
  · rintro ⟨hq, rfl⟩
    -- some output is the last one, and it is the only one
    obtain ⟨b, front, back, hsplit, hback⟩ := exists_lastMention_iff.2 ⟨_, hvalue.2 ⟨hq, rfl⟩⟩
    obtain ⟨_, rfl⟩ := hvalue.1 (hsplit ▸ List.mem_append_right _ List.mem_cons_self)
    exact ⟨front, back, hsplit, hback⟩

/-- **Outputs for all states make a machine**, and it has just these outputs. -/
theorem exists_toMoore (hd : d.Closed) (hD : d.toDFA = .ok D) (out : State → Char)
    {states : List State} (hstates : ∀ q, q ∈ states ↔ q ∈ D.states) :
    ∃ m, d.toMoore (states.map fun q => (q, out q)) = .ok m ∧ m.automaton = D ∧
      ∀ q, m.outputAt q = if q ∈ D.states then some (out q) else none := by
  have hreached : ∀ q, q ∈ D.reachable →
      ∃ c, (FinMap.ofList (states.map fun q => (q, out q))).get? q = some c := by
    intro q hq
    have hmem := D.toNFA.reachable_subset (wellFormed_toDFA hd hD) hq
    exact ⟨out q, FinMap.get?_ofList_eq_some_iff.2
      (lastMention_map_iff.2 ⟨(hstates q).2 hmem, rfl⟩)⟩
  have hok := Moore.ofDFA_eq_ok_iff.2 ⟨hreached, rfl⟩
  obtain ⟨hautomaton, _, hout⟩ := Moore.ofDFA_ofList_eq_ok_iff.1 hok
  refine ⟨_, ?_, hautomaton, fun q => ?_⟩
  · rw [toMoore, hD]
    exact hok
  · by_cases hq : q ∈ D.states
    · rw [if_pos hq]
      exact (hout q (out q)).2 ⟨hq, lastMention_map_iff.2 ⟨(hstates q).2 hq, rfl⟩⟩
    · rw [if_neg hq, Option.eq_none_iff_forall_ne_some]
      exact fun c hc => hq ((hout q c).1 hc).1

end Description

/-! ## Assignments -/

namespace Command

variable {q : State} {c : Char} {text : String} {d : Description} {D : DFA}

/-- The assignment of an output to a state. -/
def assignment (q : State) (c : Char) : String := q ++ "=" ++ String.singleton c

/-- The argument that assigns an output to a state. -/
def outputArgument (q : State) (c : Char) : String := "--output=" ++ assignment q c

theorem toList_assignment : (assignment q c).toList = q.toList ++ ['=', c] := by
  simp [assignment, String.toList_append]

theorem toList_outputArgument : (outputArgument q c).toList =
    '-' :: '-' :: ("output".toList ++ '=' :: (q.toList ++ ['=', c])) := by
  simp [outputArgument, String.toList_append, toList_assignment]

/-- The part before the first `=` ends there. -/
theorem span_append_equals {l rest : List Char} (h : '=' ∉ l) :
    (l ++ '=' :: rest).span (· ≠ '=') = (l, '=' :: rest) := by
  have hall : ∀ b ∈ l, decide (b ≠ '=') = true :=
    fun b hb => decide_eq_true fun heq => h (heq ▸ hb)
  rw [List.span_eq_takeWhile_dropWhile, List.takeWhile_append_of_pos hall,
    List.dropWhile_append_of_pos hall]
  simp

/-- A name without `=` is read back with its output. -/
theorem outputOfText_assignment (hne : q.toList ≠ []) (h : '=' ∉ q.toList) :
    outputOfText (assignment q c) = .ok (q, c) := by
  rw [outputOfText, toList_assignment, span_append_equals h]
  simp [hne]

/-- A name with `=` is cut there, and too much is left for a symbol. -/
theorem outputOfText_assignment_of_mem (h : '=' ∈ q.toList) :
    outputOfText (assignment q c) = .error (.malformed 1 (assignment q c)
      "expected an assignment of the form state=symbol") := by
  obtain ⟨front, back, hsplit, hfront⟩ := List.eq_append_cons_of_mem h
  have htext : (assignment q c).toList = front ++ '=' :: (back ++ ['=', c]) := by
    simp [toList_assignment, hsplit]
  rw [outputOfText, htext, span_append_equals hfront]
  cases back with
  | nil => rfl
  | cons b back => cases back <;> rfl

/-- **An assignment is read back exactly if the name has no `=` in it.** -/
theorem outputOfText_assignment_iff (hne : q.toList ≠ []) :
    outputOfText (assignment q c) = .ok (q, c) ↔ '=' ∉ q.toList := by
  refine ⟨fun hok hmem => ?_, outputOfText_assignment hne⟩
  rw [outputOfText_assignment_of_mem hmem] at hok
  cases hok

/-! ## Arguments -/

/-- The options of the command that runs a Moore machine. -/
def mooreSwitches : List Switch := [verbosity, fileSwitch, ⟨'o', "output", .value, true⟩]

/-- An argument with an assignment is an option with its value. -/
theorem kindOf_outputArgument : Arguments.kindOf mooreSwitches (outputArgument q c) =
    .options (some ([("output", assignment q c)], none)) := by
  have htake : ("output".toList ++ '=' :: (q.toList ++ ['=', c])).span (· ≠ '=') =
      ("output".toList, '=' :: (q.toList ++ ['=', c])) := span_append_equals (by decide)
  rw [List.span_eq_takeWhile_dropWhile, Prod.mk.injEq] at htake
  have hvalue : String.ofList (q.toList ++ ['=', c]) = assignment q c := by
    rw [← toList_assignment, String.ofList_toList]
  have hlong : Arguments.readLong mooreSwitches
      ("output".toList ++ '=' :: (q.toList ++ ['=', c])) =
        some ([("output", assignment q c)], none) := by
    simp only [Arguments.readLong, htake.1, htake.2, String.ofList_toList, hvalue]
    rfl
  rw [Arguments.kindOf, toList_outputArgument]
  exact congrArg Arguments.ArgumentKind.options hlong

/-- The options that assign outputs to some states. -/
def assigned (out : State → Char) (states : List State) : List (String × String) :=
  states.map fun q => ("output", assignment q (out q))

section Reading

variable {out : State → Char} {states : List State} {rest : List String} {a : Arguments}
  {tape : String} {file : Option String}

/-- Arguments with assignments are sorted in front of all others. -/
theorem sort_outputArguments (ha : Arguments.sort mooreSwitches rest = some a) :
    Arguments.sort mooreSwitches ((states.map fun q => outputArgument q (out q)) ++ rest) =
      some (a.push (assigned out states)) := by
  induction states with
  | nil => exact ha
  | cons q states ih =>
    rw [List.map_cons, List.cons_append, Arguments.sort, kindOf_outputArgument]
    simp [ih, Arguments.push, assigned]

/-- Only one option is given by assignments. -/
theorem filter_assigned (out : State → Char) (states : List State) (long : String) :
    (assigned out states).filter (fun o => o.1 = long) =
      if "output" = long then assigned out states else [] := by
  split_ifs with h
  · rw [List.filter_eq_self]
    simpa [assigned] using fun q _ => h
  · rw [List.filter_eq_nil_iff]
    simpa [assigned] using fun q _ => h

theorem values_push_assigned (a : Arguments) (out : State → Char) (states : List State)
    (long : String) :
    (a.push (assigned out states)).values long =
      (if "output" = long then states.map fun q => assignment q (out q) else []) ++
        a.values long := by
  rw [Arguments.values, Arguments.push, List.filter_append, filter_assigned, List.map_append]
  split_ifs <;> simp [Arguments.values, assigned]

/-- Assignments can be repeated, and nothing else becomes a repetition by them. -/
theorem read_outputArguments (out : State → Char) (states : List State)
    (ha : Arguments.read mooreSwitches rest = some a) :
    Arguments.read mooreSwitches ((states.map fun q => outputArgument q (out q)) ++ rest) =
      some (a.push (assigned out states)) := by
  obtain ⟨b, hb, hread⟩ := Option.bind_eq_some_iff.1 ha
  obtain ⟨hsingle, rfl⟩ : b.withoutRepetition mooreSwitches = true ∧ b = a := by simpa using hread
  have hsingle' : (b.push (assigned out states)).withoutRepetition
      mooreSwitches = true := by
    rw [Arguments.withoutRepetition, List.all_eq_true] at hsingle ⊢
    intro s hs
    have hkept := hsingle s hs
    by_cases hlong : "output" = s.long
    · have hrepeatable : s.repeatable = true := by
        simp only [mooreSwitches, List.mem_cons, List.not_mem_nil, or_false] at hs
        obtain rfl | rfl | rfl := hs
        · simp [verbosity] at hlong
        · simp [fileSwitch] at hlong
        · rfl
      rw [hrepeatable, Bool.true_or]
    · rw [Arguments.push, List.countP_append, List.countP_eq_length_filter, filter_assigned,
        if_neg hlong, List.length_nil, Nat.zero_add]
      exact hkept
  rw [Arguments.read, sort_outputArguments hb]
  simp [hsingle']

/-- **The command that is read from assignments for some states** and other arguments, which name a
tape and may name a file. -/
theorem ofArguments?_moore (hne : states ≠ []) (ha : Arguments.read mooreSwitches rest = some a)
    (htape : a.operands = [tape]) (hother : a.has "output" = false) :
    ofArguments? ("moore" :: ((states.map fun q => outputArgument q (out q)) ++ rest)) =
      some (.moore (states.map fun q => assignment q (out q)) tape (a.value? "file")) := by
  obtain ⟨q, states, rfl⟩ := List.exists_cons_of_ne_nil hne
  have hname : ∀ args : List String,
      ofArguments? ("moore" :: args) = ofName? "moore" args := fun args => rfl
  have hgiven : (a.push (assigned out (q :: states))).has "output"
      = true := by simp [Arguments.push, Arguments.has, assigned]
  have hnone : a.values "output" = [] := by
    simpa [Arguments.values, Arguments.has] using hother
  have houtputs := values_push_assigned a out (q :: states) "output"
  have hfile := values_push_assigned a out (q :: states) "file"
  rw [hnone, if_pos rfl, List.append_nil] at houtputs
  rw [if_neg (by decide), List.nil_append] at hfile
  have hoperands : (a.push (assigned out (q :: states))).operands
      = [tape] := htape
  have hread := read_outputArguments out (q :: states) ha
  rw [mooreSwitches] at hread
  rw [hname, ofName?, hread]
  simp only [Option.bind_eq_bind, Option.bind_some, hoperands, hgiven, if_true, houtputs,
    Arguments.value?, hfile]
  rfl

end Reading

/-! ## The run of the command -/

section Running

variable {outputs : List String} {pairs : List (State × Char)} {m : Moore} {e : Error}

/-- What is printed for the tape of a Moore machine. -/
def reply (m : Moore) (tape : String) : String :=
  match m.outputs tape.toList with
  | .complete l =>
    let shown := quoted '"' l
    let result := verdict (m.accepts tape.toList)
    s!"{shown} {result}"
  | .stuck l =>
    let shown := quoted '"' l
    let result := coloured 33 "stuck"
    s!"{shown} {result}"

theorem ofExcept_ok_bind {α β : Type} (a : α) (f : α → Printing β) :
    ofExcept (Except.ok a : Except Error α) >>= f = f a := rfl

/-- The machine is printed, and then what it does with the tape. -/
theorem run_moore (houtputs : outputs.mapM outputOfText = .ok pairs)
    (htext : Description.ofText text = .ok d) (hm : d.toMoore pairs = .ok m) (tape : String)
    (file : Option String) : (Command.moore outputs tape file).run (.ok text) =
      .success ("" ++ m.render ++ "\n" ++ reply m tape ++ "\n") := by
  have hread : (perform (.moore outputs tape file) (.ok text)).run "" =
      .ok () ("" ++ m.render ++ "\n" ++ reply m tape ++ "\n") := by
    simp only [perform, houtputs, textOf, Except.mapError, htext, ofExcept_ok_bind, hm, reply]
    cases m.outputs tape.toList with
    | complete l => rfl
    | stuck l => rfl
  rw [run, hread]

/-- An assignment that cannot be read ends the command before anything is printed. -/
theorem run_moore_of_malformed (houtputs : outputs.mapM outputOfText = .error e) (tape : String)
    (file : Option String) (input : Except ReadFailure String) :
    (Command.moore outputs tape file).run input = .failure "" e := by
  rw [run, perform, houtputs]
  rfl

end Running

variable {out : State → Char} {states : List State}

/-- All assignments are read back if no name has `=` in it. -/
theorem mapM_assignment (hnames : ∀ q ∈ states, q.toList ≠ [] ∧ '=' ∉ q.toList) :
    (states.map fun q => assignment q (out q)).mapM outputOfText =
      .ok (states.map fun q => (q, out q)) := by
  rw [List.mapM_map]
  exact mapM_eq_ok_map fun q hq => outputOfText_assignment (hnames q hq).1 (hnames q hq).2

/-- The first assignment for a name with `=` in it is refused. -/
theorem mapM_assignment_of_mem {front back : List State} {q : State}
    (hfront : ∀ p ∈ front, p.toList ≠ [] ∧ '=' ∉ p.toList) (hq : '=' ∈ q.toList) :
    ((front ++ q :: back).map fun q => assignment q (out q)).mapM outputOfText =
      .error (.malformed 1 (assignment q (out q))
        "expected an assignment of the form state=symbol") := by
  rw [List.mapM_map]
  refine mapM_append_cons_eq_error (fun p hp => ⟨(p, out p), ?_⟩)
    (outputOfText_assignment_of_mem hq)
  exact outputOfText_assignment (hfront p hp).1 (hfront p hp).2

/-- **The machine from the arguments.**  Every state of a deterministic automaton from a text is
given an output by an argument of its own.  The command that is read from these arguments has all
the assignments.  If no state has an `=` in its name, it prints the machine with exactly these
outputs, and what it does with the tape.  Otherwise the first assignment for such a state is refused
as not being of the form that it has, and nothing is printed. -/
theorem machine_from_arguments (out : State → Char) (htext : Description.ofText text = .ok d)
    (hD : d.toDFA = .ok D) (hstates : states.Perm D.states.toList) :
    (∀ q c, Description.IsToken q.toList →
      (outputOfText (assignment q c) = .ok (q, c) ↔ '=' ∉ q.toList)) ∧
    (∀ rest a tape, Arguments.read mooreSwitches rest = some a → a.operands = [tape] →
      a.has "output" = false →
      ofArguments? ("moore" :: ((states.map fun q => outputArgument q (out q)) ++ rest)) =
        some (.moore (states.map fun q => assignment q (out q)) tape (a.value? "file"))) ∧
    ((∀ q, q ∈ D.states → '=' ∉ q.toList) →
      ∃ m, d.toMoore (states.map fun q => (q, out q)) = .ok m ∧ m.automaton = D ∧
        (∀ q, m.outputAt q = if q ∈ D.states then some (out q) else none) ∧
        ∀ tape file,
          (Command.moore (states.map fun q => assignment q (out q)) tape file).run (.ok text) =
            .success (m.render ++ "\n" ++ reply m tape ++ "\n")) ∧
    ∀ front q back, states = front ++ q :: back → (∀ p ∈ front, '=' ∉ p.toList) →
      '=' ∈ q.toList → ∀ tape file input,
        (Command.moore (states.map fun q => assignment q (out q)) tape file).run input =
          .failure "" (.malformed 1 (assignment q (out q))
            "expected an assignment of the form state=symbol") := by
  have hclosed : d.Closed := .ofText htext
  have hmem : ∀ q, q ∈ states ↔ q ∈ D.states := fun q => hstates.mem_iff
  have hname : ∀ q ∈ states, q.toList ≠ [] := by
    intro q hq
    have hknown : q ∈ d.states := Description.states_of_toDFA hD ▸ (hmem q).1 hq
    exact (Description.isToken_of_mem_states htext hknown).ne_nil
  have hne : states ≠ [] :=
    List.ne_nil_of_mem ((hmem D.start).2 (Description.wellFormed_toDFA hclosed hD).start_mem)
  refine ⟨fun q c hq => outputOfText_assignment_iff hq.ne_nil, ?_, ?_, ?_⟩
  · intro rest a tape ha htape hother
    exact ofArguments?_moore hne ha htape hother
  · intro hequals
    obtain ⟨m, hm, hautomaton, hout⟩ := Description.exists_toMoore hclosed hD out hmem
    have houtputs : (states.map fun q => assignment q (out q)).mapM outputOfText =
        .ok (states.map fun q => (q, out q)) :=
      mapM_assignment fun q hq => ⟨hname q hq, hequals q ((hmem q).1 hq)⟩
    refine ⟨m, hm, hautomaton, hout, fun tape file => ?_⟩
    rw [run_moore houtputs htext hm, String.empty_append]
  · rintro front q back rfl hfront hq tape file input
    refine run_moore_of_malformed (mapM_assignment_of_mem (fun p hp => ?_) hq) tape file input
    exact ⟨hname p (List.mem_append_left _ hp), hfront p hp⟩

/-- Two states and an edge for the sign that assignments are made with. -/
def equalsMachine : DFA :=
  let moves := FunctionalRelation.ofList [⟨"0", '=', "p"⟩, ⟨"0", '-', "0"⟩]
  { states := FinSet.ofList ["0", "p"]
    alphabet := FinSet.ofList ['=', '-']
    start := "0"
    finals := FinSet.ofList ["p"]
    edges := moves.edges
    functional := moves.functional }

theorem equalsMachine_from_arguments :
    ofArguments? ["moore", "--output=p=x", "--output=0==", "-v", "--", "-="] =
      some (.moore ["p=x", "0=="] "-=" none) ∧
    ∃ m : Moore, m.automaton = equalsMachine ∧ m.outputAt "0" = some '=' ∧
      m.outputAt "p" = some 'x' ∧
      (Command.moore ["p=x", "0=="] "-=" none).run (.ok "-> 0 -> = p | - 0\n() p") =
        .success (m.render ++ "\n" ++ reply m "-=" ++ "\n") := by
  have htext : Description.ofText "-> 0 -> = p | - 0\n() p" = .ok (Description.empty.addAll
      [.start "0", .state "0", .edge ⟨"0", '=', "p"⟩, .edge ⟨"0", '-', "0"⟩, .final "p",
        .state "p"]) := by cbv
  have hstates : ["p", "0"].Perm equalsMachine.states.toList := by decide
  have hequals : ∀ q, q ∈ equalsMachine.states → '=' ∉ q.toList := by decide
  obtain ⟨_, hread, hmachine, _⟩ :=
    machine_from_arguments (fun q => if q = "p" then 'x' else '=') htext rfl hstates
  obtain ⟨m, _, hm, hout, hrun⟩ := hmachine hequals
  have hrest : Arguments.read mooreSwitches ["-v", "--", "-="] =
      some ⟨[("verbosity", "info")], ["-="]⟩ := by decide
  exact ⟨hread _ _ "-=" hrest rfl (by decide), m, hm, (hout "0").trans (by decide),
    (hout "p").trans (by decide), hrun "-=" none⟩

/-- **A state that no argument gives an output to.**  The name of the only state has an `=` in it.
There is a machine with the output `x` for it, but the argument that asks for it is refused. -/
theorem equalsInName_refused :
    ∃ d D m, Description.ofText "-> a=b" = .ok d ∧ d.toDFA = .ok D ∧ D.states.toList = ["a=b"] ∧
      d.toMoore [("a=b", 'x')] = .ok m ∧ m.outputAt "a=b" = some 'x' ∧
      outputOfText "a=b=x" ≠ .ok ("a=b", 'x') ∧
      ofArguments? ["moore", "--output=a=b=x", ""] = some (.moore ["a=b=x"] "" none) ∧
      (Command.moore ["a=b=x"] "" none).run (.ok "-> a=b") =
        .failure "" (.malformed 1 "a=b=x" "expected an assignment of the form state=symbol") := by
  have htext : Description.ofText "-> a=b" =
      .ok (Description.empty.addAll [.start "a=b", .state "a=b"]) := by cbv
  have hstates : ∀ q, q ∈ ["a=b"] ↔ q ∈ FinSet.ofList ["a=b"] := fun _ => Iff.rfl
  obtain ⟨m, hm, _, hout⟩ :=
    Description.exists_toMoore (.ofText htext) rfl (fun _ => 'x') hstates
  exact ⟨_, _, m, htext, rfl, rfl, hm, hout "a=b", by decide, by decide, by decide⟩

end Command

end Automata
