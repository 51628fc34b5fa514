import Automata.State
import Mathlib.Data.List.Nodup

/-!
# Numbers and names for the members of a list

Things are numbered by their places in a list and named by a list of pairs.  Either works as an
identification as long as nothing occurs twice, which is what the lemmas here ask for.

## What is here

* `idxOf?_eq_some_iff_getElem?` — in a list without repetition the place of a member is where it
  is found.
* `Naming` — a list of pairs in which no thing and no name occurs twice, so that looking up a name
  and looking up what it stands for are inverse to each other.
* `unused_congr` — the order of the taken names does not matter for the name that is chosen.
* `nodup_supply` — **the names that are handed out for a list of requests differ from each other**,
  and `naming_zip_supply` — so they are a naming of any list of as many different things.
-/

set_option autoImplicit false

namespace Automata

variable {α : Type}

/-! ## Numbers -/

/-- In a list without repetition the place of a member is where it is found. -/
theorem idxOf?_eq_some_iff_getElem? [BEq α] [LawfulBEq α] {l : List α} (h : l.Nodup) {a : α}
    {i : Nat} : l.idxOf? a = some i ↔ l[i]? = some a := by
  rw [List.idxOf?_eq_some_iff, List.getElem?_eq_some_iff]
  refine ⟨?_, ?_⟩
  · rintro ⟨hi, ha, _⟩
    exact ⟨hi, ha⟩
  · rintro ⟨hi, ha⟩
    refine ⟨hi, ha, fun j hj he => ?_⟩
    have hne := List.pairwise_iff_getElem.1 h j i (Nat.lt_trans hj hi) hi hj
    exact hne (he.trans ha.symm)

/-- Every member has a place. -/
theorem exists_idxOf?_eq_some [BEq α] [LawfulBEq α] {l : List α} {a : α} (h : a ∈ l) :
    ∃ i, l.idxOf? a = some i :=
  Option.isSome_iff_exists.1 (List.isSome_idxOf?.2 h)

/-! ## Names -/

/-- What a table of all values of `f` on a list answers. -/
theorem lookup_map_pair {β : Type} [BEq α] [LawfulBEq α] {f : α → β} {l : List α} {a : α} :
    (l.map fun b => (b, f b)).lookup a = if l.contains a then some (f a) else none := by
  induction l with
  | nil => rfl
  | cons b l ih =>
    rw [List.map_cons, List.lookup_cons, ih, List.contains_cons]
    by_cases h : a = b
    · subst h
      simp
    · rw [beq_false_of_ne h, Bool.false_or]

/-- A list of pairs in which no thing and no name occurs twice. -/
structure Naming (l : List (α × State)) : Prop where
  /-- No thing has two names. -/
  things_nodup : (l.map Prod.fst).Nodup
  /-- No name stands for two things. -/
  names_nodup : (l.map Prod.snd).Nodup

namespace Naming

variable {l : List (α × State)}

theorem of_cons {x : α × State} (h : Naming (x :: l)) : Naming l :=
  ⟨(List.nodup_cons.1 h.things_nodup).2, (List.nodup_cons.1 h.names_nodup).2⟩

/-- Looking a thing up gives the name it is listed with. -/
theorem lookup_eq_some_iff [BEq α] [LawfulBEq α] (h : Naming l) {a : α} {q : State} :
    l.lookup a = some q ↔ (a, q) ∈ l := by
  induction l with
  | nil => simp
  | cons x l ih =>
    obtain ⟨b, p⟩ := x
    rw [List.lookup_cons]
    by_cases hab : a = b
    · subst hab
      rw [beq_self_eq_true, Option.some_inj, List.mem_cons, Prod.mk.injEq]
      refine ⟨?_, ?_⟩
      · rintro rfl
        exact .inl ⟨rfl, rfl⟩
      · rintro (⟨_, he⟩ | hm)
        · exact he.symm
        · exact absurd (List.mem_map.2 ⟨_, hm, rfl⟩) (List.nodup_cons.1 h.things_nodup).1
    · rw [beq_false_of_ne hab, ih h.of_cons, List.mem_cons, Prod.mk.injEq]
      simp only [hab, false_and, false_or]

/-- A name stands for one thing only. -/
theorem eq_of_name (h : Naming l) {a b : α} {q : State} (ha : (a, q) ∈ l) (hb : (b, q) ∈ l) :
    a = b := by
  have hinj := List.inj_on_of_nodup_map h.names_nodup ha hb rfl
  exact congrArg Prod.fst hinj

end Naming

/-! ## Names that are handed out -/

/-- Which name is chosen depends on what is taken, and not on the order in which it is listed. -/
theorem unused_congr {taken taken' : List String} (h : ∀ n, n ∈ taken ↔ n ∈ taken')
    (name : String) : unused taken name = unused taken' name := by
  fun_induction unused taken name with
  | case1 name hmem ih =>
    rw [ih, unused.eq_1 taken' name, if_pos ((h name).1 hmem)]
  | case2 name hnew =>
    rw [unused.eq_1 taken' name, if_neg (mt (h name).2 hnew)]

theorem not_mem_of_mem_supply {taken requests : List String} {n : String}
    (h : n ∈ supply taken requests) : n ∉ taken := by
  induction requests generalizing taken with
  | nil => exact absurd h List.not_mem_nil
  | cons r rs ih =>
    rw [supply] at h
    rcases List.mem_cons.1 h with rfl | h
    · exact unused_not_mem taken r
    · exact fun ht => ih h (List.mem_cons_of_mem _ ht)

/-- **The names that are handed out differ from each other.** -/
theorem nodup_supply (taken requests : List String) : (supply taken requests).Nodup := by
  induction requests generalizing taken with
  | nil => exact .nil
  | cons r rs ih =>
    rw [supply]
    exact List.nodup_cons.2 ⟨fun h => not_mem_of_mem_supply h List.mem_cons_self, ih _⟩

/-- The first request is granted as it is when nothing is taken. -/
theorem supply_nil_cons (request : String) (requests : List String) :
    supply [] (request :: requests) = request :: supply [request] requests := by
  rw [supply, unused, if_neg List.not_mem_nil]

/-- Names that are handed out name any list of as many different things. -/
theorem naming_zip_supply {things : List α} {taken requests : List String}
    (h : things.Nodup) (hlen : things.length = requests.length) :
    Naming (things.zip (supply taken requests)) := by
  have hlen' : things.length = (supply taken requests).length := by rw [hlen, length_supply]
  refine ⟨?_, ?_⟩
  · rw [List.map_fst_zip (Nat.le_of_eq hlen')]
    exact h
  · rw [List.map_snd_zip (Nat.le_of_eq hlen'.symm)]
    exact nodup_supply taken requests

end Automata
