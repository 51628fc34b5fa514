import Automata.Proofs.Derivations
import Automata.Proofs.Grammars
import Mathlib

/-!
# What becomes of a draft

A draft is told its root and its rules one by one, in any order and as often as one likes, and it
refuses what would put a terminal where only a nonterminal can be.  Its root therefore depends on
everything that it was told: the root that was set last counts, whether it was set before or after
the rules, and the first rule counts if none was set.  What was refused counts for nothing.

## What is here

* `Grammar.Draft.Call`, `Grammar.Draft.tell` — what a draft is told, each time with the table as it
  is then, and how it answers.
* `Grammar.Draft.History`, `Grammar.Draft.History.of` — a draft with the calls that it took.
* `Grammar.Draft.tell_eq` — a call is taken exactly if its head is a nonterminal, and otherwise the
  draft stays as it was.
* `Grammar.Draft.Records` — what a draft holds of the calls that it took, with
  `Grammar.Draft.Records.take` for one call and `Grammar.Draft.History.records_of` for all of them.
* `Grammar.Draft.History.outcome` — **the grammar that comes of a draft is made of what it took.**
-/

set_option autoImplicit false

namespace Automata

namespace Grammar

namespace Draft

/-! ## Calls -/

/-- Something that a draft is told, with the table as it is at that time. -/
inductive Call where
  /-- The root is to be `s`. -/
  | setRoot (table : SymbolTable) (s : Symbol)
  /-- There is to be the rule `r`. -/
  | addRule (table : SymbolTable) (r : Rule)
deriving DecidableEq

namespace Call

/-- The table at the time of the call. -/
def table : Call → SymbolTable
  | setRoot table _ => table
  | addRule table _ => table

/-- The symbol that has to be a nonterminal. -/
def head : Call → Symbol
  | setRoot _ s => s
  | addRule _ r => r.left

/-- The root, if that is what the call is about. -/
def root? : Call → Option Symbol
  | setRoot _ s => some s
  | addRule _ _ => none

/-- The rule, if that is what the call is about. -/
def rule? : Call → Option Rule
  | setRoot _ _ => none
  | addRule _ r => some r

end Call

/-- The draft that a call asks for. -/
def take (d : Draft) : Call → Except Error Draft
  | .setRoot table s => d.setRoot table s
  | .addRule table r => d.addRule table r

/-- The answer to a call, and the draft afterwards. -/
def tell (d : Draft) (c : Call) : Except Error Unit × Draft :=
  match d.take c with
  | .ok d' => (.ok (), d')
  | .error e => (.error e, d)

/-- A draft with the calls that it took, in order. -/
structure History where
  /-- The calls that did not fail. -/
  taken : List Call := []
  /-- The draft as it is now. -/
  draft : Draft := {}

namespace History

/-- One more call, which is forgotten if it fails. -/
def call (σ : History) (c : Call) : History :=
  match σ.draft.tell c with
  | (.ok _, d) => ⟨σ.taken ++ [c], d⟩
  | (.error _, d) => ⟨σ.taken, d⟩

/-- The history of a draft that is told one thing after the other. -/
def of (calls : List Call) : History := calls.foldl call {}

theorem of_concat (calls : List Call) (c : Call) : of (calls ++ [c]) = (of calls).call c := by
  simp [of]

end History

variable {d d' : Draft} {c : Call} {taken : List Call} {table : SymbolTable} {s : Symbol}

/-! ## One call -/

/-- The draft after a call that it takes. -/
def after (d : Draft) : Call → Draft
  | .setRoot _ s => { d with root := some s }
  | .addRule _ r => { root := some (d.root.getD r.left), rules := d.rules.insert r }

theorem take_eq_ok (h : c.head.isNonterminal = true) : d.take c = .ok (d.after c) := by
  cases c with
  | setRoot table s => exact setRoot_eq_ok_iff.2 ⟨Symbol.isNonterminal_iff.1 h, rfl⟩
  | addRule table r => exact addRule_eq_ok_iff.2 ⟨Symbol.isNonterminal_iff.1 h, rfl⟩

/-- A terminal is refused.  If the table has it, then the draft says which symbol it refuses. -/
theorem take_eq_error (h : c.head.isNonterminal = false) : ∃ e, d.take c = .error e ∧
    (c.table.Has c.head → ∃ rule reason, e = .unsupportedRule rule reason) := by
  have hname : ∀ {table : SymbolTable} {s : Symbol} (rule : String → String) (reason : String),
      ∃ e, (do let name ← table.nameOf s; throw (.unsupportedRule (rule name) reason) :
        Except Error Draft) = .error e ∧
        (table.Has s → ∃ rule reason, e = .unsupportedRule rule reason) := by
    intro table s rule reason
    cases hname : table.nameOf s with
    | ok name => exact ⟨_, rfl, fun _ => ⟨_, _, rfl⟩⟩
    | error e =>
      refine ⟨e, rfl, fun hhas => ?_⟩
      obtain ⟨name, hok⟩ := SymbolTable.exists_nameOf hhas
      cases hname.symm.trans hok
  cases c with
  | setRoot table s =>
    have hs : s.isNonterminal = false := h
    simp only [take, setRoot, hs, Bool.false_eq_true, if_false]
    exact hname id _
  | addRule table r =>
    have hr : r.left.isNonterminal = false := h
    simp only [take, addRule, hr, Bool.false_eq_true, if_false]
    exact hname _ _

/-- **A call is taken exactly if its head is a nonterminal**, and otherwise the draft stays as it
was. -/
theorem tell_eq (d : Draft) (c : Call) :
    if c.head.isNonterminal then d.tell c = (.ok (), d.after c)
    else ∃ e, d.tell c = (.error e, d) ∧
      (c.table.Has c.head → ∃ rule reason, e = .unsupportedRule rule reason) := by
  split
  · rename_i h
    rw [tell, take_eq_ok h]
  · rename_i h
    obtain ⟨e, he, hreason⟩ := take_eq_error (d := d) (Bool.eq_false_iff.2 h)
    exact ⟨e, by rw [tell, he], hreason⟩

namespace History

variable {σ : History} {calls : List Call}

theorem call_of_nonterminal (h : c.head.isNonterminal = true) :
    σ.call c = ⟨σ.taken ++ [c], σ.draft.after c⟩ := by
  have htell := σ.draft.tell_eq c
  rw [if_pos h] at htell
  rw [call, htell]

theorem call_of_terminal (h : c.head.isNonterminal = false) : σ.call c = σ := by
  have htell := σ.draft.tell_eq c
  rw [if_neg (Bool.eq_false_iff.1 h)] at htell
  obtain ⟨e, he, _⟩ := htell
  rw [call, he]

/-- What is taken does not depend on what was taken before. -/
theorem taken_of (calls : List Call) :
    (of calls).taken = calls.filter fun c => c.head.isNonterminal := by
  induction calls using List.reverseRecOn with
  | nil => rfl
  | append_singleton calls c ih =>
    rw [of_concat, List.filter_append, List.filter_singleton]
    cases h : c.head.isNonterminal with
    | true => rw [call_of_nonterminal h, ih, cond_true]
    | false => rw [call_of_terminal h, ih, cond_false, List.append_nil]

end History

/-! ## What a draft holds -/

/-- The root that counts after these calls: the last one that was set, or else the left side of the
first rule. -/
def rootAfter (taken : List Call) : Option Symbol :=
  (taken.filterMap Call.root?).getLast?.or ((taken.filterMap Call.rule?).map Rule.left).head?

/-- The draft holds the root that counts after these calls, and their rules. -/
structure Records (taken : List Call) (d : Draft) : Prop where
  root : d.root = rootAfter taken
  mem_rules : ∀ r, r ∈ d.rules ↔ r ∈ taken.filterMap Call.rule?

theorem Records.empty : Records [] {} := ⟨rfl, fun _ => Iff.rfl⟩

/-- One more call is held as well. -/
theorem Records.take (h : Records taken d) (c : Call) : Records (taken ++ [c]) (d.after c) := by
  obtain ⟨hroot, hrules⟩ := h
  cases c with
  | setRoot table s =>
    refine ⟨?_, fun r => ?_⟩
    · simp [after, rootAfter, Call.root?]
    · simp [after, hrules, Call.rule?]
  | addRule table r =>
    refine ⟨?_, fun r' => ?_⟩
    · -- the rule gives the root only if there was neither a root nor a rule before
      simp only [after, hroot, rootAfter, List.filterMap_append, List.map_append,
        List.head?_append, List.filterMap_cons, List.filterMap_nil, Call.root?, Call.rule?,
        List.append_nil, List.map_cons, List.map_nil, List.head?_cons]
      cases (taken.filterMap Call.root?).getLast? with
      | some s => rfl
      | none => cases ((taken.filterMap Call.rule?).map Rule.left).head? <;> rfl
    · simp [after, hrules, Call.rule?, or_comm]

/-- A draft holds everything that it took. -/
theorem History.records_of (calls : List Call) : Records (of calls).taken (of calls).draft := by
  induction calls using List.reverseRecOn with
  | nil => exact .empty
  | append_singleton calls c ih =>
    rw [of_concat]
    cases h : c.head.isNonterminal with
    | true =>
      rw [call_of_nonterminal h]
      exact ih.take c
    | false =>
      rw [call_of_terminal h]
      exact ih

/-- There is a root as soon as a call was taken. -/
theorem rootAfter_eq_none_iff : rootAfter taken = none ↔ taken = [] := by
  cases taken with
  | nil => simp [rootAfter]
  | cons c taken => cases c <;> simp [rootAfter, Call.root?, Call.rule?]

/-- The root is the head of a call. -/
theorem exists_head_of_rootAfter (h : rootAfter taken = some s) : ∃ c ∈ taken, c.head = s := by
  rcases Option.or_eq_some_iff.1 h with hset | ⟨_, hfirst⟩
  · obtain ⟨c, hc, hs⟩ := List.mem_filterMap.1 (List.mem_of_getLast? hset)
    cases c with
    | setRoot table s' => exact ⟨_, hc, Option.some_inj.1 hs⟩
    | addRule table r => cases hs
  · obtain ⟨r, hr, rfl⟩ := List.mem_map.1 (List.mem_of_head? hfirst)
    obtain ⟨c, hc, hr⟩ := List.mem_filterMap.1 hr
    cases c with
    | setRoot table s' => cases hr
    | addRule table r' => exact ⟨_, hc, congrArg Rule.left (Option.some_inj.1 hr)⟩

/-! ## What comes of it -/

theorem finish_eq_error (h : d.root = none) : d.finish = .error .missingStart := by
  rw [finish, h]

theorem finish_eq_ok (h : d.root = some s) : d.finish = .ok ⟨s, d.rules⟩ := by
  rw [finish, h]

/-- **The grammar that comes of a draft is made of what the draft took.**  Of anything that it is
told, a draft refuses what has a terminal at its head, and stays as it was.  There is no grammar if
it took nothing.  Otherwise the root is the one that was set last, or else the left side of the
first rule, and the rules are those that it took. -/
theorem History.outcome (calls : List Call) :
    (∀ (d : Draft) (c : Call),
      if c.head.isNonterminal then d.tell c = (.ok (), d.after c)
      else ∃ e, d.tell c = (.error e, d) ∧
        (c.table.Has c.head → ∃ rule reason, e = .unsupportedRule rule reason)) ∧
    (of calls).taken = (calls.filter fun c => c.head.isNonterminal) ∧
    ((of calls).taken = [] → (of calls).draft.finish = .error .missingStart) ∧
    ((of calls).taken ≠ [] → ∃ g, (of calls).draft.finish = .ok g ∧
      some g.root = rootAfter (of calls).taken ∧
      (∀ r, r ∈ g.rules ↔ ∃ table, .addRule table r ∈ (of calls).taken) ∧ g.rules.toList.Nodup ∧
      g.root.isNonterminal = true ∧ ∀ r, r ∈ g.rules → r.left.isNonterminal = true) := by
  obtain ⟨hroot, hrules⟩ := records_of calls
  have hheads : ∀ c ∈ (of calls).taken, c.head.isNonterminal = true := by
    intro c hc
    rw [taken_of] at hc
    exact (List.mem_filter.1 hc).2
  have hmem : ∀ r, r ∈ (of calls).draft.rules ↔ ∃ table, .addRule table r ∈ (of calls).taken := by
    intro r
    rw [hrules, List.mem_filterMap]
    constructor
    · rintro ⟨c, hc, hr⟩
      cases c with
      | setRoot table s => cases hr
      | addRule table r' => exact ⟨table, Option.some_inj.1 hr ▸ hc⟩
    · rintro ⟨table, hc⟩
      exact ⟨_, hc, rfl⟩
  refine ⟨tell_eq, taken_of calls, fun hnone => ?_, fun hsome => ?_⟩
  · exact finish_eq_error (hroot.trans (rootAfter_eq_none_iff.2 hnone))
  · obtain ⟨root, hr⟩ := Option.ne_none_iff_exists'.1 (mt rootAfter_eq_none_iff.1 hsome)
    obtain ⟨c, hc, rfl⟩ := exists_head_of_rootAfter hr
    refine ⟨_, finish_eq_ok (hroot.trans hr), hr.symm, hmem, FinSet.nodup _, hheads c hc, ?_⟩
    intro r hmem'
    obtain ⟨table, hc⟩ := (hmem r).1 hmem'
    exact hheads _ hc

/-- Two nonterminals and a terminal. -/
def callTable : SymbolTable := ⟨[(.nonterminal, "S"), (.nonterminal, "T"), (.terminal, "x")]⟩

/-- A root is set between rules, one of which comes twice, and the terminal is refused wherever it
is offered. -/
def mixedCalls : List Call :=
  [.addRule callTable ⟨⟨2, .terminal⟩, [⟨0, .nonterminal⟩]⟩,
    .addRule callTable ⟨⟨0, .nonterminal⟩, [⟨2, .terminal⟩, ⟨1, .nonterminal⟩]⟩,
    .setRoot callTable ⟨1, .nonterminal⟩,
    .addRule callTable ⟨⟨1, .nonterminal⟩, [⟨2, .terminal⟩]⟩,
    .setRoot callTable ⟨2, .terminal⟩,
    .addRule callTable ⟨⟨0, .nonterminal⟩, [⟨2, .terminal⟩, ⟨1, .nonterminal⟩]⟩]

theorem mixedCalls_outcome :
    ((History.of mixedCalls).taken ≠ [] ∧ ∃ g, (History.of mixedCalls).draft.finish = .ok g ∧
      some g.root = some ⟨1, .nonterminal⟩ ∧ ∀ r, r ∈ g.rules ↔
        ∃ table, .addRule table r ∈ (History.of mixedCalls).taken) ∧
    (History.of [.setRoot callTable ⟨2, .terminal⟩]).taken = [] ∧
      (History.of [.setRoot callTable ⟨2, .terminal⟩]).draft.finish = .error .missingStart := by
  have hsome : (History.of mixedCalls).taken ≠ [] := by decide
  have hroot : rootAfter (History.of mixedCalls).taken = some ⟨1, .nonterminal⟩ := by decide
  have hnone : (History.of [.setRoot callTable ⟨2, .terminal⟩]).taken = [] := by decide
  obtain ⟨g, hg, hroot', hrules, _⟩ := (History.outcome mixedCalls).2.2.2 hsome
  exact ⟨⟨hsome, g, hg, hroot'.trans hroot, hrules⟩, hnone,
    (History.outcome [.setRoot callTable ⟨2, .terminal⟩]).2.2.1 hnone⟩

end Draft

end Grammar

end Automata
