import Automata.FinSet
import Automata.Proofs.PrimedNames
import Mathlib.Data.List.Induction

/-!
# Names for collections of states, call by call

Whoever needs names for collections of states asks one namer for all of them.  It remembers the names
that it has handed out, and a loop adds primes to the canonical name until it is not one of them.  A
primed name could in turn be what a later call asks for; that this never happens, and that the loop
ends, follows from the brace at the end of canonical names: the names that are taken are at any time
the canonical names of the calls so far, each with all numbers of primes below the number of its
calls.

## What is here

* `Namer` — the names that have been handed out; `Namer.pass` — one pass of the loop, `Namer.fresh`
  — the name for the next call and `Namer.give` — what the namer remembers then.
* `Namer.names` — the answers to a list of calls; `Namer.names_eq_supply` — they are the names that
  are supplied for the canonical names.
* `Namer.granted_after` — **what is taken after any calls.**
* `Namer.Answer` — what the next call is answered; `names_of_collections` — **no name is handed out
  twice, and names are primed as often as their canonical names were asked for before.**
-/

set_option autoImplicit false

namespace Automata

/-- What hands out names for collections of states. -/
structure Namer where
  /-- The names that have been handed out. -/
  taken : FinSet State
deriving DecidableEq

namespace Namer

variable {n : Namer} {members : List State} {calls earlier : List (List State)} {name : State}
  {j k : Nat}

/-- One pass of the loop that looks for a name: a name that is taken gets one more prime. -/
def pass (n : Namer) (name : State) : State := if name ∈ n.taken then primed name else name

/-- The name for a collection. -/
def fresh (n : Namer) (members : List State) : State := unused n.taken.toList (braced members)

/-- What is remembered after a call. -/
def give (n : Namer) (members : List State) : Namer := ⟨n.taken.insert (n.fresh members)⟩

/-- Nothing has been handed out in the beginning. -/
def start : Namer := ⟨∅⟩

/-- What is remembered after the calls, from the beginning. -/
def after (calls : List (List State)) : Namer := calls.foldl give start

/-- How many of the calls were for collections with the canonical name of this one. -/
def requests (calls : List (List State)) (members : List State) : Nat :=
  calls.countP fun m => braced m = braced members

/-- The answers to the calls. -/
def names (n : Namer) : List (List State) → List State
  | [] => []
  | members :: calls => n.fresh members :: names (n.give members) calls

/-! ## Primes as text -/

/-- Priming a name some times puts as many primes behind it. -/
theorem iterate_primed (name : String) (k : Nat) :
    primed^[k] name = name ++ String.ofList (List.replicate k '\'') := by
  refine String.toList_injective ?_
  induction k with
  | zero => simp
  | succ k ih =>
    rw [Function.iterate_succ_apply', toList_primed, ih]
    simp [List.replicate_succ']

/-! ## The loop -/

/-- The loop adds primes until it comes to a name that is not taken, and none after that. -/
theorem iterate_pass (hlt : ∀ j < k, primed^[j] name ∈ n.taken) (hk : primed^[k] name ∉ n.taken) :
    n.pass^[j] name = primed^[min j k] name := by
  induction j with
  | zero => rw [Nat.zero_min, Function.iterate_zero_apply, Function.iterate_zero_apply]
  | succ j ih =>
    rw [Function.iterate_succ_apply', ih, pass]
    rcases Nat.lt_or_ge j k with hj | hj
    · rw [Nat.min_eq_left (Nat.le_of_lt hj), if_pos (hlt j hj), Nat.min_eq_left hj,
        ← Function.iterate_succ_apply' primed]
    · rw [Nat.min_eq_right hj, if_neg hk, Nat.min_eq_right (Nat.le_succ_of_le hj)]

theorem iterate_pass_not_mem_iff (hlt : ∀ j < k, primed^[j] name ∈ n.taken)
    (hk : primed^[k] name ∉ n.taken) : n.pass^[j] name ∉ n.taken ↔ k ≤ j := by
  rw [iterate_pass hlt hk]
  rcases Nat.lt_or_ge j k with hj | hj
  · rw [Nat.min_eq_left (Nat.le_of_lt hj)]
    exact iff_of_false (not_not_intro (hlt j hj)) (Nat.not_le_of_lt hj)
  · rw [Nat.min_eq_right hj]
    exact iff_of_true hk hj

/-! ## What is taken -/

theorem after_concat (earlier : List (List State)) (members : List State) :
    after (earlier ++ [members]) = (after earlier).give members :=
  List.foldl_concat ..

/-- **After any calls, the canonical name of each of them is taken with all numbers of primes that
are less than the number of its calls**, and nothing else is. -/
theorem granted_after (calls : List (List State)) :
    Granted (after calls).taken.toList (calls.map braced) := by
  induction calls using List.reverseRecOn with
  | nil => exact granted_nil
  | append_singleton earlier members ih =>
    intro r hr k
    have hcons := ih.cons (unprimed_braced members) r hr k
    rw [List.count_cons, List.mem_cons] at hcons
    rw [after_concat, give, FinSet.mem_toList, FinSet.mem_insert, List.map_append, List.count_append,
      List.map_singleton, List.count_singleton]
    exact hcons

theorem not_mem_taken_start : name ∉ start.taken := FinSet.not_mem_empty

theorem count_map_braced (calls : List (List State)) (members : List State) :
    (calls.map braced).count (braced members) = requests calls members :=
  count_map_eq_countP braced calls members

/-- The canonical name of a collection is taken with fewer primes than there were calls for it. -/
theorem primed_mem_taken_after_iff :
    primed^[k] (braced members) ∈ (after earlier).taken ↔ k < requests earlier members := by
  rw [← count_map_braced]
  exact granted_after earlier _ (unprimed_braced members) k

/-- The name for a collection is its canonical name, with one prime for each call for it before. -/
theorem fresh_after (earlier : List (List State)) (members : List State) :
    (after earlier).fresh members = primed^[requests earlier members] (braced members) := by
  rw [← count_map_braced]
  exact (granted_after earlier).unused_eq (unprimed_braced members)

/-- The first name that is not taken has as many primes as there were calls. -/
theorem primed_not_mem_taken_after :
    primed^[requests earlier members] (braced members) ∉ (after earlier).taken :=
  mt primed_mem_taken_after_iff.1 (Nat.lt_irrefl _)

/-- **The loop ends after as many passes as there were calls for the canonical name**, and not
before. -/
theorem pass_after_not_mem_iff :
    (after earlier).pass^[k] (braced members) ∉ (after earlier).taken ↔
      requests earlier members ≤ k :=
  iterate_pass_not_mem_iff (fun _ => primed_mem_taken_after_iff.2) primed_not_mem_taken_after

/-! ## The answers to the calls -/

theorem names_append (n : Namer) (calls calls' : List (List State)) :
    n.names (calls ++ calls') = n.names calls ++ (calls.foldl give n).names calls' := by
  induction calls generalizing n with
  | nil => rfl
  | cons members calls ih =>
    rw [List.cons_append, names, ih, names, List.cons_append]
    rfl

/-- What has been answered is taken, and nothing else is. -/
theorem mem_taken_after_iff : name ∈ (after calls).taken ↔ name ∈ start.names calls := by
  induction calls using List.reverseRecOn with
  | nil => exact iff_of_false not_mem_taken_start List.not_mem_nil
  | append_singleton calls members ih =>
    rw [after_concat, give, FinSet.mem_insert, ih, names_append, names, names, List.mem_append,
      List.mem_singleton, or_comm]
    rfl

/-- The answers are the names that are supplied for the canonical names. -/
theorem names_eq_supply {taken : List String} (h : ∀ name, name ∈ taken ↔ name ∈ n.taken)
    (calls : List (List State)) : n.names calls = supply taken (calls.map braced) := by
  induction calls generalizing n taken with
  | nil => rfl
  | cons members calls ih =>
    have hfresh : unused taken (braced members) = n.fresh members := unused_congr h _
    rw [names, List.map_cons, supply, hfresh, ih fun name => ?_]
    rw [give, FinSet.mem_insert, List.mem_cons, h]

/-- The canonical name has been handed out exactly if a collection that has it was called for. -/
theorem braced_mem_names_iff :
    braced members ∈ start.names earlier ↔ 0 < requests earlier members := by
  rw [← mem_taken_after_iff]
  exact primed_mem_taken_after_iff (k := 0)

/-- What the next call after the calls `earlier` is answered. -/
structure Answer (earlier : List (List State)) (members : List State) : Prop where
  /-- The loop ends after as many passes as there were calls for the canonical name, and not
  before. -/
  ends_iff : ∀ k, (after earlier).pass^[k] (braced members) ∉ (after earlier).taken ↔
    requests earlier members ≤ k
  /-- The answer is what the loop ends with. -/
  fresh_eq_pass : ∀ k, requests earlier members ≤ k →
    (after earlier).fresh members = (after earlier).pass^[k] (braced members)
  /-- This is the canonical name, followed by exactly one prime for each earlier call for it. -/
  fresh_eq : (after earlier).fresh members =
    braced members ++ String.ofList (List.replicate (requests earlier members) '\'')
  /-- The answer is appended to those of the earlier calls, -/
  names_concat : start.names (earlier ++ [members]) =
    start.names earlier ++ [(after earlier).fresh members]
  /-- and is not among them. -/
  fresh_not_mem : (after earlier).fresh members ∉ start.names earlier
  /-- It has no primes exactly if the canonical name was not handed out before, -/
  unprimed_iff : (after earlier).fresh members = braced members ↔
    braced members ∉ start.names earlier
  /-- which is to say that no earlier call was for a collection with this canonical name. -/
  unused_iff : braced members ∉ start.names earlier ↔
    ∀ m ∈ earlier, braced m ≠ braced members

theorem answer (earlier : List (List State)) (members : List State) : Answer earlier members where
  ends_iff _ := pass_after_not_mem_iff
  fresh_eq_pass k hk := by
    rw [fresh_after, iterate_pass (fun _ => primed_mem_taken_after_iff.2)
      primed_not_mem_taken_after, Nat.min_eq_right hk]
  fresh_eq := by rw [fresh_after, iterate_primed]
  names_concat := names_append start earlier [members]
  fresh_not_mem := by
    rw [← mem_taken_after_iff, fresh_after]
    exact primed_not_mem_taken_after
  unprimed_iff := by
    have hinj := primed_iterate_inj_iff (j := requests earlier members) (k := 0)
      (unprimed_braced members) (unprimed_braced members)
    rw [braced_mem_names_iff, Nat.pos_iff_ne_zero, not_not, fresh_after]
    simpa using hinj
  unused_iff := by
    rw [braced_mem_names_iff, Nat.pos_iff_ne_zero, not_not, requests, List.countP_eq_zero]
    simp only [decide_eq_true_eq, ne_eq]

end Namer

/-- **No name is handed out twice, and names are primed only when needed.**  Whatever the members of
the collections are called, the loop ends at every call; the answers to any calls differ from each
other, and the k-th call for a canonical name is answered with this name and k - 1 primes.  Names
that are supplied to the states of a determinized or a minimized automaton are such answers. -/
theorem names_of_collections :
    (∀ calls, (Namer.start.names calls).Nodup ∧
      Namer.start.names calls = supply [] (calls.map braced)) ∧
    ∀ earlier members, Namer.Answer earlier members := by
  refine ⟨fun calls => ?_, Namer.answer⟩
  have hsupply : Namer.start.names calls = supply [] (calls.map braced) :=
    Namer.names_eq_supply (fun _ => iff_of_false List.not_mem_nil Namer.not_mem_taken_start) calls
  exact ⟨hsupply ▸ nodup_supply _ _, hsupply⟩

end Automata
