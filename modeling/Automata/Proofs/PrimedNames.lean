import Automata.Proofs.Naming
import Mathlib.Logic.Function.Iterate

/-!
# Canonical names and their primes

The canonical name of a set of states ends in a brace and never in a prime.  So a primed name is
not mistaken for a canonical one, whatever the members are called, and the primes of a name count
how often its canonical name was asked for before.

## What is here

* `Unprimed` — the names without a prime at their end, and `primed_iterate_inj_iff` — what was
  primed, and how often, can be told from the result.
* `Granted` — which names are taken once some requests have been granted; `Granted.cons` is the
  step for one more request.
* `getElem?_supply` — **a request is granted with one prime for each equal request before it.**
* `braced_inj_iff` — canonical names without further commas name one list of members only.
-/

set_option autoImplicit false

namespace Automata

variable {r s name : String} {taken earlier requests : List String} {j k : Nat}

/-! ## Primes at the end of a name -/

theorem toList_primed (name : String) : (primed name).toList = name.toList ++ ['\''] :=
  String.toList_push '\''

theorem primed_injective : Function.Injective primed := by
  intro r s h
  have hlist := congrArg String.toList h
  rw [toList_primed, toList_primed, List.append_cancel_right_eq] at hlist
  exact String.toList_injective hlist

/-- The name does not end in a prime. -/
def Unprimed (name : String) : Prop := name.toList.getLast? ≠ some '\''

theorem not_unprimed_primed (name : String) : ¬ Unprimed (primed name) := fun h =>
  h (by rw [toList_primed, List.getLast?_concat])

/-- What was primed, and how often, can be told from the result. -/
theorem primed_iterate_inj_iff (hr : Unprimed r) (hs : Unprimed s) :
    primed^[j] r = primed^[k] s ↔ r = s ∧ j = k := by
  induction j generalizing k with
  | zero =>
    cases k with
    | zero => simp
    | succ k =>
      rw [Function.iterate_zero_apply, Function.iterate_succ_apply']
      refine ⟨fun h => absurd (h ▸ hr) (not_unprimed_primed _), fun h => by omega⟩
  | succ j ih =>
    cases k with
    | zero =>
      rw [Function.iterate_zero_apply, Function.iterate_succ_apply']
      refine ⟨fun h => absurd (h ▸ hs) (not_unprimed_primed _), fun h => by omega⟩
    | succ k =>
      rw [Function.iterate_succ_apply', Function.iterate_succ_apply', primed_injective.eq_iff, ih,
        Nat.succ_inj]

/-! ## How often a name is primed -/

/-- The chosen name is the first primed form that is not taken. -/
theorem unused_eq_iterate (hlt : ∀ j < k, primed^[j] name ∈ taken)
    (hk : primed^[k] name ∉ taken) : unused taken name = primed^[k] name := by
  induction k generalizing name with
  | zero =>
    rw [Function.iterate_zero_apply] at hk ⊢
    rw [unused, if_neg hk]
  | succ k ih =>
    have hname : name ∈ taken := hlt 0 k.succ_pos
    rw [unused, if_pos hname, Function.iterate_succ_apply]
    refine ih (fun j hj => ?_) ?_
    · rw [← Function.iterate_succ_apply]
      exact hlt (j + 1) (Nat.succ_lt_succ hj)
    · rwa [← Function.iterate_succ_apply]

/-- The names that are taken once the requests `earlier` have been granted: one primed form after
the other for each time that a name was asked for. -/
def Granted (taken earlier : List String) : Prop :=
  ∀ r, Unprimed r → ∀ k, primed^[k] r ∈ taken ↔ k < earlier.count r

theorem granted_nil : Granted [] [] := by simp [Granted]

/-- A name gets one prime for each time that it was asked for before. -/
theorem Granted.unused_eq (h : Granted taken earlier) (hr : Unprimed r) :
    unused taken r = primed^[earlier.count r] r := by
  refine unused_eq_iterate (fun j hj => (h r hr j).2 hj) fun hm => ?_
  exact Nat.lt_irrefl _ ((h r hr _).1 hm)

/-- Granting one more request. -/
theorem Granted.cons (h : Granted taken earlier) (hr : Unprimed r) :
    Granted (unused taken r :: taken) (r :: earlier) := by
  intro s hs k
  rw [List.mem_cons, h.unused_eq hr, primed_iterate_inj_iff hs hr, h s hs, List.count_cons]
  by_cases hsr : s = r
  · subst hsr
    simp only [true_and, beq_self_eq_true, if_true]
    omega
  · simp [hsr, Ne.symm hsr]

/-- **A request is granted with one prime for each equal request before it.** -/
theorem getElem?_supply (h : Granted taken earlier) (hreq : ∀ r ∈ requests, Unprimed r) (i : Nat) :
    (supply taken requests)[i]? = requests[i]?.map fun r =>
      primed^[earlier.count r + (requests.take i).count r] r := by
  induction requests generalizing taken earlier i with
  | nil => rfl
  | cons s requests ih =>
    have hs : Unprimed s := hreq s List.mem_cons_self
    rw [supply]
    cases i with
    | zero => simp [h.unused_eq hs]
    | succ i =>
      rw [List.getElem?_cons_succ, List.getElem?_cons_succ,
        ih (h.cons hs) fun r hr => hreq r (List.mem_cons_of_mem s hr)]
      refine Option.map_congr fun r _ => ?_
      rw [List.take_succ_cons, List.count_cons, List.count_cons]
      congr 1
      omega

/-- How often the name of a thing occurs among the names of others. -/
theorem count_map_eq_countP {α : Type} (name : α → String) (l : List α) (a : α) :
    (l.map name).count (name a) = l.countP fun b => name b = name a := by
  rw [List.count, List.countP_map]
  exact List.countP_congr fun b _ => by simp

/-! ## Canonical names -/

theorem toList_braced (names : List String) :
    (braced names).toList
      = '\x7b' :: ([','].intercalate (names.map String.toList) ++ ['\x7d']) := by
  simp [braced, String.toList_intercalate]

theorem unprimed_braced (names : List String) : Unprimed (braced names) := by
  rw [Unprimed, toList_braced, ← List.cons_append, List.getLast?_concat]
  decide

/-- Canonical names without further commas name one list of members only. -/
theorem braced_inj_iff {l m : List String} (hl : ∀ q ∈ l, ',' ∉ q.toList)
    (hm : ∀ q ∈ m, ',' ∉ q.toList) (hl' : l ≠ []) (hm' : m ≠ []) :
    braced l = braced m ↔ l = m := by
  refine ⟨fun h => ?_, congrArg braced⟩
  have hlist := congrArg String.toList h
  rw [toList_braced, toList_braced, List.cons.injEq, List.append_cancel_right_eq] at hlist
  have hsplit := congrArg (List.splitOn ',') hlist.2
  rw [List.splitOn_intercalate, List.splitOn_intercalate] at hsplit
  · exact List.map_injective_iff.2 (fun _ _ => String.toList_injective) hsplit
  all_goals simpa

theorem braced_singleton_inj_iff {p q : String} : braced [p] = braced [q] ↔ p = q := by
  refine ⟨fun h => ?_, fun h => h ▸ rfl⟩
  have hlist := congrArg String.toList h
  rw [toList_braced, toList_braced, List.cons.injEq, List.append_cancel_right_eq] at hlist
  exact String.toList_injective (by simpa using hlist.2)

end Automata
