/-!
# States and their names

A state is its name.  This file also says how names for new states are chosen: a set of states is
called by its members in braces, and a name that is taken is primed until it is free.

## What is here

* `braced` — the common name of several states, `{p,q}`.
* `unused` — a name with as many primes as it takes to differ from all taken names.
* `supply` — unused names for a list of requests, each name counting as taken for the later ones.
-/

set_option autoImplicit false

namespace Automata

/-- A state of an automaton, identified by its name. -/
abbrev State := String

/-- Names in braces, separated by commas. -/
def braced (names : List String) : String :=
  "\x7b" ++ ",".intercalate names ++ "\x7d"

/-- A name with one more prime. -/
def primed (name : String) : String := name.push '\''

theorem length_primed (name : String) : (primed name).length = name.length + 1 := by
  simp [primed]

/-- The number of taken names that have at least `n` characters. -/
def takenFrom (n : Nat) (taken : List String) : Nat := taken.countP fun t => decide (n ≤ t.length)

theorem takenFrom_cons (n : Nat) (t : String) (taken : List String) :
    takenFrom n (t :: taken) = takenFrom n taken + if n ≤ t.length then 1 else 0 := by
  by_cases h : n ≤ t.length <;> simp [takenFrom, h]

theorem takenFrom_succ_le (n : Nat) (taken : List String) :
    takenFrom (n + 1) taken ≤ takenFrom n taken := by
  induction taken with
  | nil => exact Nat.le_refl _
  | cons t l ih =>
    rw [takenFrom_cons, takenFrom_cons]
    split <;> split <;> omega

/-- Priming a taken name leaves fewer taken names that are at least as long. -/
theorem takenFrom_primed_lt {taken : List String} {name : String} (h : name ∈ taken) :
    takenFrom (primed name).length taken < takenFrom name.length taken := by
  rw [length_primed]
  induction taken with
  | nil => exact absurd h List.not_mem_nil
  | cons t l ih =>
    rw [takenFrom_cons, takenFrom_cons]
    rcases List.mem_cons.1 h with rfl | h
    · have := takenFrom_succ_le name.length l
      split <;> split <;> omega
    · have := ih h
      split <;> split <;> omega

/-- The name itself if it is not taken, and otherwise the first of its primed forms that is not. -/
def unused (taken : List String) (name : String) : String :=
  if name ∈ taken then unused taken (primed name) else name
termination_by takenFrom name.length taken
decreasing_by exact takenFrom_primed_lt (by assumption)

/-- A chosen name is not taken. -/
theorem unused_not_mem (taken : List String) (name : String) : unused taken name ∉ taken := by
  fun_induction unused taken name with
  | case1 name _ ih => exact ih
  | case2 name h => exact h

/-- Unused names for all requests, in order; every name handed out is taken for those after it. -/
def supply (taken : List String) : List String → List String
  | [] => []
  | request :: requests =>
    let name := unused taken request
    name :: supply (name :: taken) requests

/-- There is one name for each request. -/
@[simp] theorem length_supply (taken requests : List String) :
    (supply taken requests).length = requests.length := by
  induction requests generalizing taken with
  | nil => rfl
  | cons r rs ih => simp [supply, ih]

end Automata
