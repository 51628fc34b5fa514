import Automata.Proofs.Ambiguity
import Automata.Proofs.Reachability
import Automata.Proofs.Views

/-!
# What becomes of a description with outputs

A Moore machine is made in three steps, each of which can fail: the description must name a start,
its edges must be functional, and the states that tapes lead to must have outputs.  The steps are
taken in this order, and each fails at the least thing that is wrong.  What is wrong, and what the
machine is if nothing is, can be said without the steps.

## What is here

* `LastMention` — the pair of a list that counts for a key; `exists_lastMention_iff` says that there
  is one for every key that is mentioned.
* `NFA.LeastSilent` — the least state that a tape leads to and that has no output.
* `Description.MooreOutcome` — what a description with outputs comes to, by cause.
* `Description.toDFA_eq_error_iff`, `Moore.ofDFA_eq_error_iff` — how the steps fail, and
  `Moore.ofDFA_ofList_eq_ok_iff` — what they yield.
* `Description.toMoore_exact` — **a description with outputs comes to its outcome**, and to nothing
  else.
-/

set_option autoImplicit false

namespace Automata

/-! ## Pairs that count -/

section LastMention

variable {κ β : Type} {l : List (κ × β)} {k : κ} {b : β}

/-- The key has the value in the list, and is not mentioned after that. -/
def LastMention (l : List (κ × β)) (k : κ) (b : β) : Prop :=
  ∃ front back, l = front ++ (k, b) :: back ∧ ∀ b', (k, b') ∉ back

/-- The last value of a key is found from behind. -/
theorem lookup_reverse_eq_some_iff [DecidableEq κ] :
    l.reverse.lookup k = some b ↔ LastMention l k b := by
  rw [List.lookup_eq_some_iff]
  constructor
  · rintro ⟨back, front, hsplit, hback⟩
    refine ⟨front.reverse, back.reverse, ?_, fun b' hb' => ?_⟩
    · rw [← List.reverse_reverse l, hsplit, List.reverse_append, List.reverse_cons,
        List.append_assoc, List.singleton_append]
    · exact bne_iff_ne.1 (hback _ (List.mem_reverse.1 hb')) rfl
  · rintro ⟨front, back, rfl, hback⟩
    refine ⟨back.reverse, front.reverse, ?_, fun p hp => bne_iff_ne.2 ?_⟩
    · rw [List.reverse_append, List.reverse_cons, List.append_assoc, List.singleton_append]
    · rintro rfl
      exact hback p.2 (List.mem_reverse.1 hp)

/-- The map of a list answers with what was mentioned last. -/
theorem FinMap.get?_ofList_eq_some_iff [Ord κ] [Std.TransOrd κ] [Std.LawfulEqOrd κ]
    [DecidableEq κ] : (FinMap.ofList l).get? k = some b ↔ LastMention l k b := by
  rw [FinMap.get?_ofList, lookup_reverse_eq_some_iff]

/-- What is mentioned is mentioned for the last time. -/
theorem exists_lastMention_iff [DecidableEq κ] :
    (∃ b, LastMention l k b) ↔ ∃ b, (k, b) ∈ l := by
  constructor
  · rintro ⟨b, front, back, rfl, _⟩
    exact ⟨b, List.mem_append_right _ List.mem_cons_self⟩
  · rintro ⟨b, hb⟩
    have hsome : (l.reverse.lookup k).isSome = true :=
      List.lookup_isSome_iff.2 ⟨_, List.mem_reverse.2 hb, beq_self_eq_true k⟩
    obtain ⟨b', hb'⟩ := Option.isSome_iff_exists.1 hsome
    exact ⟨b', lookup_reverse_eq_some_iff.1 hb'⟩

end LastMention

/-- The state is the least of those that some tape leads to and that no pair mentions. -/
structure NFA.LeastSilent (A : NFA) (outputs : List (State × Char)) (q : State) : Prop where
  /-- A tape leads to it. -/
  reached : ∃ tape, A.Path A.start tape q
  /-- No pair mentions it. -/
  silent : ∀ c, (q, c) ∉ outputs
  /-- All others have greater names. -/
  least : ∀ tape p, A.Path A.start tape p → (∀ c, (p, c) ∉ outputs) → q ≤ p

/-! ## The steps and how they fail -/

section Steps

variable {A : NFA} {D : DFA} {d : Description} {outputs : List (State × Char)} {q : State}
  {x : Error} {m : Moore}

theorem get?_ofList_isNone_iff :
    ((FinMap.ofList outputs).get? q).isNone = true ↔ ∀ c, (q, c) ∉ outputs := by
  rw [Option.isNone_iff_eq_none, Option.eq_none_iff_forall_ne_some]
  simp only [ne_eq, FinMap.get?_ofList_eq_some_iff, ← not_exists, exists_lastMention_iff]

/-- The states that tapes lead to are the reachable ones, and names ascend. -/
theorem NFA.isFirst_silent_iff :
    A.reachable.IsFirst (fun p => ∀ c, (p, c) ∉ outputs) q ↔ A.LeastSilent outputs q := by
  constructor
  · rintro ⟨hmem, hsilent, hleast⟩
    refine ⟨mem_reachable_iff.1 hmem, hsilent, fun tape p hp hout => ?_⟩
    rcases hleast p (mem_reachable_iff.2 ⟨tape, hp⟩) hout with rfl | hlt
    · exact le_rfl
    · exact (compare_lt_iff_lt.1 hlt).le
  · rintro ⟨hreached, hsilent, hleast⟩
    refine ⟨mem_reachable_iff.2 hreached, hsilent, fun p hp hout => ?_⟩
    obtain ⟨tape, hp⟩ := mem_reachable_iff.1 hp
    rcases (hleast tape p hp hout).eq_or_lt with rfl | hlt
    · exact .inl rfl
    · exact .inr (compare_lt_iff_lt.2 hlt)

/-- A machine cannot be made exactly if a tape leads to a state without an output.  The least such
state is the reason. -/
theorem Moore.ofDFA_eq_error_iff : ofDFA D (FinMap.ofList outputs) = .error x ↔
    ∃ q, D.toNFA.LeastSilent outputs q ∧ x = .missingOutput q := by
  have hfound : ∀ q, D.reachable.toList.find?
      (fun p => ((FinMap.ofList outputs).get? p).isNone) = some q ↔
      D.toNFA.LeastSilent outputs q := fun q => by
    rw [FinSet.find?_toList_eq_some_iff, ← NFA.isFirst_silent_iff]
    exact FinSet.isFirst_congr fun p _ => get?_ofList_isNone_iff
  rw [ofDFA]
  simp only [← hfound]
  cases D.reachable.toList.find? fun p => ((FinMap.ofList outputs).get? p).isNone with
  | none =>
    constructor
    · rintro ⟨⟩
    · rintro ⟨_, ⟨⟩, _⟩
  | some q => simp only [Except.error.injEq, Option.some.injEq, exists_eq_left', eq_comm]

/-- If a machine can be made, its outputs are the last ones that are listed for states. -/
theorem Moore.ofDFA_ofList_eq_ok_iff : ofDFA D (FinMap.ofList outputs) = .ok m ↔
    m.automaton = D ∧ (∀ tape q, D.toNFA.Path D.start tape q → ∃ c, (q, c) ∈ outputs) ∧
      ∀ q c, m.outputAt q = some c ↔ q ∈ D.states ∧ LastMention outputs q c := by
  have hall : (∀ q, q ∈ D.reachable → ∃ c, (FinMap.ofList outputs).get? q = some c) ↔
      ∀ tape q, D.toNFA.Path D.start tape q → ∃ c, (q, c) ∈ outputs := by
    simp only [FinMap.get?_ofList_eq_some_iff, exists_lastMention_iff, NFA.mem_reachable_iff]
    exact ⟨fun h tape q hq => h q ⟨tape, hq⟩, fun h q ⟨tape, hq⟩ => h tape q hq⟩
  have hkept : ∀ q c, ((FinMap.ofList outputs).filterKeys fun q => decide (q ∈ D.states)).get? q
      = some c ↔ q ∈ D.states ∧ LastMention outputs q c := fun q c => by
    rw [FinMap.get?_filterKeys, ← FinMap.get?_ofList_eq_some_iff]
    by_cases hq : q ∈ D.states <;> simp [hq]
  rw [ofDFA_eq_ok_iff, hall]
  constructor
  · rintro ⟨hreached, rfl⟩
    exact ⟨rfl, hreached, hkept⟩
  · rintro ⟨rfl, hreached, hout⟩
    refine ⟨hreached, ?_⟩
    have houtput : m.output =
        (FinMap.ofList outputs).filterKeys fun q => decide (q ∈ m.automaton.states) :=
      FinMap.ext fun q => Option.ext fun c => (hout q c).trans (hkept q c).symm
    cases m
    exact congrArg (Moore.mk _) houtput

namespace Description

/-- A description gives no deterministic automaton if it has no start, and else only if its edges
are ambiguous. -/
theorem toDFA_eq_error_iff : d.toDFA = .error x ↔
    d.start = none ∧ x = .missingStart ∨
      (∃ start, d.start = some start) ∧
        ∃ q a targets, d.edges.LeastAmbiguity q a targets ∧ x = .ambiguous q a targets := by
  rw [toDFA, bind_eq_error_iff, toNFA_eq_error_iff]
  refine or_congr_right ?_
  simp only [toNFA_eq_ok_iff, NFA.asDFA_eq_error_iff]
  constructor
  · rintro ⟨A, ⟨start, hstart, rfl⟩, hambiguous⟩
    exact ⟨⟨start, hstart⟩, hambiguous⟩
  · rintro ⟨⟨start, hstart⟩, hambiguous⟩
    exact ⟨_, ⟨start, hstart, rfl⟩, hambiguous⟩

theorem states_of_toDFA (h : d.toDFA = .ok D) : D.states = d.states := by
  obtain ⟨q, _, hD⟩ := toNFA_eq_ok_iff.1 (toDFA_eq_ok_iff.1 h)
  exact congrArg NFA.states hD

/-- The deterministic automaton that is described is there if nothing is ambiguous. -/
theorem exists_toDFA_iff : (∃ D, d.toDFA = .ok D ∧ D.toNFA = A) ↔
    d.toNFA = .ok A ∧ ∀ q a, ¬d.edges.Ambiguous q a := by
  simp only [Relation.not_ambiguous_iff, toDFA_eq_ok_iff]
  constructor
  · rintro ⟨D, hD, rfl⟩
    exact ⟨hD, (exists_toDFA_eq_ok_iff hD).1 ⟨D, toDFA_eq_ok_iff.2 hD⟩⟩
  · rintro ⟨hA, hfunctional⟩
    obtain ⟨D, hD⟩ := (exists_toDFA_eq_ok_iff hA).2 hfunctional
    have hD := toDFA_eq_ok_iff.1 hD
    exact ⟨D, hD, Except.ok.inj (hD.symm.trans hA)⟩

/-! ## The outcome -/

/-- What a description comes to with outputs.  Each cause of failure counts only if those before it
are absent. -/
inductive MooreOutcome (d : Description) (outputs : List (State × Char)) :
    Except Error Moore → Prop where
  /-- No start was named. -/
  | missingStart : d.start = none → MooreOutcome d outputs (.error .missingStart)
  /-- The edges are ambiguous. -/
  | ambiguous {start q : State} {a : Char} {targets : List State} :
      d.start = some start → d.edges.LeastAmbiguity q a targets →
      MooreOutcome d outputs (.error (.ambiguous q a targets))
  /-- A tape leads to a state without an output. -/
  | missingOutput {A : NFA} {q : State} :
      d.toNFA = .ok A → (∀ q a, ¬d.edges.Ambiguous q a) → A.LeastSilent outputs q →
      MooreOutcome d outputs (.error (.missingOutput q))
  /-- Nothing is wrong, and the machine has the outputs that are listed last for its states. -/
  | machine {m : Moore} :
      d.toDFA = .ok m.automaton →
      (∀ tape q, m.automaton.toNFA.Path m.automaton.start tape q → ∃ c, (q, c) ∈ outputs) →
      (∀ q c, m.outputAt q = some c ↔ q ∈ d.states ∧ LastMention outputs q c) →
      MooreOutcome d outputs (.ok m)

/-- **A description with outputs comes to its outcome.**  A missing start counts before ambiguous
edges, and these before a missing output; the least of several ambiguities and of several states
without an output is named.  If there are none, the machine has an output for the known states that
are listed, and it is the one that is listed last. -/
theorem toMoore_exact (d : Description) (outputs : List (State × Char))
    (x : Except Error Moore) : d.toMoore outputs = x ↔ d.MooreOutcome outputs x := by
  cases x with
  | error e =>
    rw [toMoore, bind_eq_error_iff, toDFA_eq_error_iff]
    simp only [Moore.ofDFA_eq_error_iff]
    constructor
    · rintro ((⟨hstart, rfl⟩ | ⟨⟨start, hstart⟩, q, a, targets, h, rfl⟩) | ⟨D, hD, q, hq, rfl⟩)
      · exact .missingStart hstart
      · exact .ambiguous hstart h
      · obtain ⟨hA, hfunctional⟩ := exists_toDFA_iff.1 ⟨D, hD, rfl⟩
        exact .missingOutput hA hfunctional hq
    · intro h
      cases h with
      | missingStart hstart => exact .inl (.inl ⟨hstart, rfl⟩)
      | ambiguous hstart h => exact .inl (.inr ⟨⟨_, hstart⟩, _, _, _, h, rfl⟩)
      | missingOutput hA hfunctional hq =>
        obtain ⟨D, hD, rfl⟩ := exists_toDFA_iff.2 ⟨hA, hfunctional⟩
        exact .inr ⟨D, hD, _, hq, rfl⟩
  | ok m =>
    rw [toMoore, bind_eq_ok_iff]
    simp only [Moore.ofDFA_ofList_eq_ok_iff]
    constructor
    · rintro ⟨D, hD, rfl, hreached, hout⟩
      exact .machine hD hreached (states_of_toDFA hD ▸ hout)
    · intro h
      cases h with
      | machine hD hreached hout =>
        exact ⟨_, hD, rfl, hreached, (states_of_toDFA hD).symm ▸ hout⟩

/-- The state `q` has no output either, but the edges come first. -/
example : (empty.addAll [.start "p", .edge ⟨"p", 'a', "q"⟩, .edge ⟨"p", 'a', "p"⟩]).toMoore
    [("p", 'x')] = .error (.ambiguous "p" 'a' ["p", "q"]) := by
  rfl

end Description

end Steps

end Automata
