/-!
# Finite sets as ascending lists

A finite set over an ordered type is the list of its members in strictly ascending order.  The
order is part of the type, so two sets with the same members are equal, and every answer that
lists a set lists it in the same order.

## What is here

* `FinSet α` — the sets, with membership, `insert`, `ofList`, `union`, `filter` and `map`.
* `FinSet.ext` — **a set is determined by its members.**
* one membership law for every operation (`mem_insert`, `mem_ofList`, `mem_union`, …), so that
  later proofs never look at the lists.
-/

set_option autoImplicit false

namespace Automata

open Std

universe u v

/-- A finite set: its members in strictly ascending order. -/
structure FinSet (α : Type u) [Ord α] where
  /-- The members, ascending. -/
  toList : List α
  /-- Every member is below all later ones. -/
  ascending : toList.Pairwise (fun a b => compare a b = .lt)

namespace FinSet

variable {α : Type u} {β : Type v} [Ord α] [Ord β]

instance [DecidableEq α] : DecidableEq (FinSet α) := fun s t =>
  if h : s.toList = t.toList then
    isTrue (by cases s; cases t; simp_all)
  else
    isFalse (fun e => h (congrArg toList e))

instance : Membership α (FinSet α) where
  mem s a := a ∈ s.toList

theorem mem_def {a : α} {s : FinSet α} : a ∈ s ↔ a ∈ s.toList := Iff.rfl

@[simp] theorem mem_toList {a : α} {s : FinSet α} : a ∈ s.toList ↔ a ∈ s := Iff.rfl

instance [DecidableEq α] (a : α) (s : FinSet α) : Decidable (a ∈ s) :=
  inferInstanceAs (Decidable (a ∈ s.toList))

/-- The set without members. -/
def empty : FinSet α := ⟨[], .nil⟩

instance : Inhabited (FinSet α) := ⟨empty⟩

instance : EmptyCollection (FinSet α) := ⟨empty⟩

@[simp] theorem not_mem_empty {a : α} : ¬ a ∈ (∅ : FinSet α) := List.not_mem_nil

@[simp] theorem toList_empty : (∅ : FinSet α).toList = [] := rfl

/-- Whether the set has no member. -/
def isEmpty (s : FinSet α) : Bool := s.toList.isEmpty

/-- The number of members. -/
def size (s : FinSet α) : Nat := s.toList.length

theorem isEmpty_iff {s : FinSet α} : s.isEmpty = true ↔ ∀ a, ¬ a ∈ s := by
  rw [isEmpty, List.isEmpty_iff, List.eq_nil_iff_forall_not_mem]
  exact Iff.rfl

theorem isEmpty_eq_false_iff {s : FinSet α} : s.isEmpty = false ↔ s.toList ≠ [] := by
  simp [isEmpty]

/-- A set lists no member twice. -/
theorem nodup [TransOrd α] (s : FinSet α) : s.toList.Nodup :=
  s.ascending.imp (fun {a b} hab heq => by subst heq; simp [ReflOrd.compare_self] at hab)

/-- Any list of all members that lists none of them twice has as many entries as there are. -/
theorem length_eq_size [TransOrd α] {l : List α} {s : FinSet α} (hl : l.Nodup)
    (hmem : ∀ a, a ∈ l ↔ a ∈ s) : l.length = s.size :=
  ((List.perm_ext_iff_of_nodup hl s.nodup).2 hmem).length_eq

/-! ## Equality is extensional -/

/-- Two strictly ascending lists with the same members are the same list. -/
theorem eq_of_ascending [TransOrd α] {l m : List α}
    (hl : l.Pairwise (fun a b => compare a b = .lt))
    (hm : m.Pairwise (fun a b => compare a b = .lt)) (h : ∀ a, a ∈ l ↔ a ∈ m) : l = m := by
  induction l generalizing m with
  | nil =>
    symm
    rw [List.eq_nil_iff_forall_not_mem]
    intro a ha
    exact List.not_mem_nil ((h a).2 ha)
  | cons a l ih =>
    cases m with
    | nil => exact absurd ((h a).1 List.mem_cons_self) List.not_mem_nil
    | cons b m =>
      have hla := List.pairwise_cons.1 hl
      have hmb := List.pairwise_cons.1 hm
      have hab : a = b := by
        rcases List.mem_cons.1 ((h a).1 List.mem_cons_self) with e | ha
        · exact e
        · rcases List.mem_cons.1 ((h b).2 List.mem_cons_self) with e | hb
          · exact e.symm
          · exact absurd (hmb.1 a ha) (OrientedCmp.not_lt_of_lt (hla.1 b hb))
      subst hab
      have irrefl : ∀ c : α, compare c c ≠ .lt := fun c => by simp [ReflOrd.compare_self]
      refine congrArg (a :: ·) (ih hla.2 hmb.2 fun c => ⟨fun hc => ?_, fun hc => ?_⟩)
      · rcases List.mem_cons.1 ((h c).1 (List.mem_cons_of_mem a hc)) with e | hc'
        · exact absurd (e ▸ hla.1 c hc) (irrefl c)
        · exact hc'
      · rcases List.mem_cons.1 ((h c).2 (List.mem_cons_of_mem a hc)) with e | hc'
        · exact absurd (e ▸ hmb.1 c hc) (irrefl c)
        · exact hc'

/-- A set is determined by its listing. -/
theorem eq_of_toList_eq {s t : FinSet α} (h : s.toList = t.toList) : s = t := by
  cases s
  cases t
  simp_all

/-- **A set is determined by its members.** -/
theorem ext [TransOrd α] {s t : FinSet α} (h : ∀ a, a ∈ s ↔ a ∈ t) : s = t :=
  eq_of_toList_eq (eq_of_ascending s.ascending t.ascending h)

/-! ## Placing a member in an ascending list -/

/-- Puts `a` into its place in an ascending list; a member equal to `a` is kept. -/
def place (a : α) : List α → List α
  | [] => [a]
  | b :: l =>
    match compare a b with
    | .lt => a :: b :: l
    | .eq => b :: l
    | .gt => b :: place a l

theorem mem_place [LawfulEqOrd α] {a c : α} {l : List α} : c ∈ place a l ↔ c = a ∨ c ∈ l := by
  induction l with
  | nil => simp [place]
  | cons b l ih =>
    unfold place
    split
    · simp
    · rename_i h
      have : a = b := LawfulEqOrd.eq_of_compare h
      subst this
      simp
    · simp only [List.mem_cons, ih]
      constructor
      · rintro (h | h | h)
        · exact .inr (.inl h)
        · exact .inl h
        · exact .inr (.inr h)
      · rintro (h | h | h)
        · exact .inr (.inl h)
        · exact .inl h
        · exact .inr (.inr h)

theorem ascending_place [TransOrd α] [LawfulEqOrd α] {a : α} {l : List α}
    (h : l.Pairwise (fun a b => compare a b = .lt)) :
    (place a l).Pairwise (fun a b => compare a b = .lt) := by
  induction l with
  | nil => simp [place]
  | cons b l ih =>
    have hb := List.pairwise_cons.1 h
    unfold place
    split
    · rename_i hab
      refine List.pairwise_cons.2 ⟨fun c hc => ?_, h⟩
      rcases List.mem_cons.1 hc with rfl | hc
      · exact hab
      · exact TransCmp.lt_trans hab (hb.1 c hc)
    · exact h
    · rename_i hab
      refine List.pairwise_cons.2 ⟨fun c hc => ?_, ih hb.2⟩
      rcases mem_place.1 hc with rfl | hc
      · exact OrientedCmp.lt_of_gt hab
      · exact hb.1 c hc

/-! ## Sets made from one member, from a test, or tested against each other -/

/-- The set with exactly one member. -/
def singleton (a : α) : FinSet α := ⟨[a], by simp⟩

@[simp] theorem mem_singleton {a b : α} : b ∈ singleton a ↔ b = a := List.mem_singleton

/-- The members that satisfy a test. -/
def filter (p : α → Bool) (s : FinSet α) : FinSet α :=
  ⟨s.toList.filter p, s.ascending.filter p⟩

@[simp] theorem mem_filter {a : α} {p : α → Bool} {s : FinSet α} :
    a ∈ s.filter p ↔ a ∈ s ∧ p a = true := List.mem_filter

/-- The least member, if there is one. -/
def min? (s : FinSet α) : Option α := s.toList.head?

/-- Whether the sets share a member. -/
def meets [DecidableEq α] (s t : FinSet α) : Bool := s.toList.any (· ∈ t)

theorem meets_iff [DecidableEq α] {s t : FinSet α} : s.meets t = true ↔ ∃ a, a ∈ s ∧ a ∈ t := by
  simp [meets]

/-! ## Sets made by repeated insertion -/

section Lawful

variable [TransOrd α] [LawfulEqOrd α]

/-- The set with `a` as a further member. -/
def insert (a : α) (s : FinSet α) : FinSet α :=
  ⟨place a s.toList, ascending_place s.ascending⟩

@[simp] theorem mem_insert {a b : α} {s : FinSet α} : b ∈ s.insert a ↔ b = a ∨ b ∈ s :=
  mem_place

/-- The set of the members of a list. -/
def ofList (l : List α) : FinSet α := l.foldr insert ∅

@[simp] theorem ofList_nil : ofList ([] : List α) = ∅ := rfl

@[simp] theorem ofList_cons {a : α} {l : List α} : ofList (a :: l) = (ofList l).insert a := rfl

@[simp] theorem mem_ofList {a : α} {l : List α} : a ∈ ofList l ↔ a ∈ l := by
  induction l with
  | nil => simp
  | cons b l ih => simp [ih]

/-- Reading a set back from its listing gives the set. -/
@[simp] theorem ofList_toList {s : FinSet α} : ofList s.toList = s := ext fun _ => by simp

/-- The members of either set. -/
def union (s t : FinSet α) : FinSet α := s.toList.foldr insert t

@[simp] theorem mem_union {a : α} {s t : FinSet α} : a ∈ s.union t ↔ a ∈ s ∨ a ∈ t := by
  have : ∀ l : List α, a ∈ l.foldr insert t ↔ a ∈ l ∨ a ∈ t := by
    intro l
    induction l with
    | nil => simp
    | cons b l ih => simp [ih, or_assoc]
  exact this s.toList

/-- The images of the members of a set. -/
def map (f : β → α) (s : FinSet β) : FinSet α := ofList (s.toList.map f)

@[simp] theorem mem_map {a : α} {f : β → α} {s : FinSet β} :
    a ∈ s.map f ↔ ∃ b, b ∈ s ∧ f b = a := by
  simp [map]

/-! ## There are finitely many sets of members of a list -/

/-- Some list holds every set whose members all stand in `l`. -/
theorem exists_list_of_subsets [DecidableEq α] (l : List α) :
    ∃ sets : List (FinSet α), ∀ s : FinSet α, (∀ a, a ∈ s → a ∈ l) → s ∈ sets := by
  induction l with
  | nil =>
    refine ⟨[∅], fun s hs => List.mem_singleton.2 (ext fun a => ?_)⟩
    exact ⟨fun ha => absurd (hs a ha) List.not_mem_nil, fun ha => absurd ha not_mem_empty⟩
  | cons b l ih =>
    obtain ⟨sets, hsets⟩ := ih
    refine ⟨sets ++ sets.map (insert b), fun s hs => List.mem_append.2 ?_⟩
    by_cases hb : b ∈ s
    · refine .inr (List.mem_map.2 ⟨s.filter (fun a => decide (a ≠ b)), hsets _ fun a ha => ?_, ?_⟩)
      · rw [mem_filter, decide_eq_true_eq] at ha
        exact (List.mem_cons.1 (hs a ha.1)).resolve_left ha.2
      · refine ext fun a => ?_
        rw [mem_insert, mem_filter, decide_eq_true_eq]
        by_cases hab : a = b
        · simp [hab, hb]
        · simp [hab]
    · exact .inl (hsets s fun a ha =>
        (List.mem_cons.1 (hs a ha)).resolve_left fun h => hb (h ▸ ha))

end Lawful

end FinSet

end Automata
