import Automata.Proofs.Description

/-!
# What is met first

A set lists its members in ascending order, so whatever goes through the list and stops at some
member has stopped at the least member that gives a reason to stop.  This is why the failures of the
library do not depend on the order in which things were put into a set.

## What is here

* `bind_eq_error_iff` — where a computation of two steps fails.
* `FinSet.IsFirst` — the least member with a property; there is one as soon as some member has the
  property (`FinSet.exists_isFirst`).
* `FinSet.isFirst_iff_split` — **it is the member with the property that has none in front of it.**
* `FinSet.find?_toList_eq_some_iff`, `FinSet.mapM_toList_eq_error_iff` — a search through a set
  finds the first member that passes, and a computation over a set fails as the first member that
  fails.
-/

set_option autoImplicit false

namespace Automata

open Std

variable {α β ε : Type}

/-- A computation of two steps fails in the first of them, or in the second after the first. -/
theorem bind_eq_error_iff {γ : Type} {x : Except ε γ} {f : γ → Except ε β} {e : ε} :
    x >>= f = .error e ↔ x = .error e ∨ ∃ c, x = .ok c ∧ f c = .error e := by
  cases x with
  | error e' =>
    constructor
    · rintro ⟨⟩
      exact .inl rfl
    · rintro (⟨⟨⟩⟩ | ⟨_, ⟨⟩, _⟩)
      rfl
  | ok c =>
    refine ⟨fun h => .inr ⟨c, rfl, h⟩, ?_⟩
    rintro (⟨⟨⟩⟩ | ⟨_, ⟨⟩, h⟩)
    exact h

/-- The first entry that fails ends a computation over a list. -/
theorem mapM_append_cons_eq_error {f : α → Except ε β} {front back : List α} {a : α} {e : ε}
    (hfront : ∀ b ∈ front, ∃ c, f b = .ok c) (ha : f a = .error e) :
    (front ++ a :: back).mapM f = .error e := by
  induction front with
  | nil =>
    rw [List.nil_append, List.mapM_cons, ha]
    rfl
  | cons b front ih =>
    obtain ⟨c, hc⟩ := hfront b List.mem_cons_self
    rw [List.cons_append, List.mapM_cons, hc, ih fun d hd => hfront d (List.mem_cons_of_mem b hd)]
    rfl

namespace FinSet

variable [Ord α] {s : FinSet α} {P Q : α → Prop} {a b : α}

/-- The member `a` has the property, and all other members that have it are greater. -/
structure IsFirst (s : FinSet α) (P : α → Prop) (a : α) : Prop where
  /-- It is a member. -/
  mem : a ∈ s
  /-- It has the property. -/
  holds : P a
  /-- It is less than all others. -/
  least : ∀ b, b ∈ s → P b → b = a ∨ compare a b = .lt

theorem isFirst_congr (h : ∀ a, a ∈ s → (P a ↔ Q a)) : s.IsFirst P a ↔ s.IsFirst Q a := by
  constructor
  · rintro ⟨hmem, hP, hleast⟩
    exact ⟨hmem, (h a hmem).1 hP, fun b hb hQ => hleast b hb ((h b hb).2 hQ)⟩
  · rintro ⟨hmem, hQ, hleast⟩
    exact ⟨hmem, (h a hmem).2 hQ, fun b hb hP => hleast b hb ((h b hb).1 hP)⟩

section Lawful

variable [TransOrd α]

/-- The first member with a property stands behind members without it only. -/
theorem isFirst_iff_split : s.IsFirst P a ↔
    P a ∧ ∃ front back, s.toList = front ++ a :: back ∧ ∀ b ∈ front, ¬P b := by
  constructor
  · rintro ⟨hmem, hP, hleast⟩
    obtain ⟨front, back, hsplit⟩ := List.append_of_mem hmem
    refine ⟨hP, front, back, hsplit, fun b hb hPb => ?_⟩
    have hascending := hsplit ▸ s.ascending
    have hlt : compare b a = .lt :=
      (List.pairwise_append.1 hascending).2.2 b hb a List.mem_cons_self
    have hbs : b ∈ s := mem_def.2 (hsplit ▸ List.mem_append_left _ hb)
    rcases hleast b hbs hPb with rfl | hgt
    · simp at hlt
    · exact OrientedCmp.not_lt_of_lt hlt hgt
  · rintro ⟨hP, front, back, hsplit, hfront⟩
    refine ⟨mem_def.2 (hsplit ▸ List.mem_append_right _ List.mem_cons_self), hP, fun b hb hPb => ?_⟩
    have hascending := hsplit ▸ s.ascending
    rcases List.mem_append.1 (hsplit ▸ mem_def.1 hb) with hb | hb
    · exact absurd hPb (hfront b hb)
    · rcases List.mem_cons.1 hb with rfl | hb
      · exact .inl rfl
      · exact .inr ((List.pairwise_cons.1 (List.pairwise_append.1 hascending).2.1).1 b hb)

/-! ## Going through a set -/

/-- A search finds the first member that passes the test. -/
theorem find?_toList_eq_some_iff {p : α → Bool} :
    s.toList.find? p = some a ↔ s.IsFirst (p · = true) a := by
  rw [isFirst_iff_split, List.find?_eq_some_iff_append]
  simp only [Bool.not_eq_eq_eq_not, Bool.not_true, Bool.not_eq_true]

/-- If some member has the property, one is the first. -/
theorem exists_isFirst (h : ∃ a, a ∈ s ∧ P a) : ∃ a, s.IsFirst P a := by
  classical
  obtain ⟨a, ha, hP⟩ := h
  have hfound : (s.toList.find? fun b => decide (P b)).isSome = true :=
    List.find?_isSome.2 ⟨a, ha, decide_eq_true hP⟩
  obtain ⟨b, hb⟩ := Option.isSome_iff_exists.1 hfound
  exact ⟨b, (isFirst_congr fun c _ => decide_eq_true_iff).1 (find?_toList_eq_some_iff.1 hb)⟩

/-- A computation over a set fails as the first member that fails. -/
theorem mapM_toList_eq_error_iff {f : α → Except ε β} {e : ε} : s.toList.mapM f = .error e ↔
    ∃ a, s.IsFirst (fun b => ∃ e', f b = .error e') a ∧ f a = .error e := by
  have hfails : ∀ {a e}, s.IsFirst (fun b => ∃ e', f b = .error e') a → f a = .error e →
      s.toList.mapM f = .error e := by
    intro a e hfirst ha
    obtain ⟨_, front, back, hsplit, hfront⟩ := isFirst_iff_split.1 hfirst
    rw [hsplit]
    refine mapM_append_cons_eq_error (fun b hb => ?_) ha
    cases hfb : f b with
    | error e' => exact absurd ⟨e', hfb⟩ (hfront b hb)
    | ok c => exact ⟨c, rfl⟩
  refine ⟨fun h => ?_, fun ⟨a, hfirst, ha⟩ => hfails hfirst ha⟩
  -- some member fails, as otherwise the whole computation would succeed
  have hsome : ∃ a, a ∈ s ∧ ∃ e', f a = .error e' := by
    by_contra hnone
    obtain ⟨cs, hok⟩ := exists_mapM_eq_ok (f := f) (l := s.toList) fun a ha => by
      cases hfa : f a with
      | error e' => exact absurd ⟨a, ha, e', hfa⟩ hnone
      | ok c => exact ⟨c, rfl⟩
    rw [h] at hok
    cases hok
  obtain ⟨a, hfirst⟩ := exists_isFirst hsome
  obtain ⟨e', ha⟩ := hfirst.holds
  have he := h.symm.trans (hfails hfirst ha)
  cases he
  exact ⟨a, hfirst, ha⟩

end Lawful

end FinSet

end Automata
