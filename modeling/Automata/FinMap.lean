/-!
# Finite maps as ascending lists of entries

A finite map is the list of its entries, strictly ascending by key.  The order is part of the
type, so two maps that give the same answers are equal.

## What is here

* `FinMap κ β` — the maps, with `get?`, `insert` (which replaces), `ofList` (later entries win)
  and `filterKeys`.
* `FinMap.get?_insert`, `FinMap.get?_empty`, `FinMap.get?_ofList` — what a map answers after each
  operation.
* `FinMap.ext` — **a map is determined by its answers.**
-/

set_option autoImplicit false

namespace Automata

open Std

universe u v

/-- A finite map: entries of key and value, strictly ascending by key. -/
structure FinMap (κ : Type u) (β : Type v) [Ord κ] where
  /-- The entries, ascending by key. -/
  entries : List (κ × β)
  /-- Every key is below all later ones. -/
  ascending : entries.Pairwise (fun a b => compare a.1 b.1 = .lt)

namespace FinMap

variable {κ : Type u} {β : Type v} [Ord κ]

instance [DecidableEq κ] [DecidableEq β] : DecidableEq (FinMap κ β) := fun m n =>
  if h : m.entries = n.entries then
    isTrue (by cases m; cases n; simp_all)
  else
    isFalse (fun e => h (congrArg entries e))

/-- The map without entries. -/
def empty : FinMap κ β := ⟨[], .nil⟩

instance : EmptyCollection (FinMap κ β) := ⟨empty⟩

instance : Inhabited (FinMap κ β) := ⟨empty⟩

/-- The keys, ascending. -/
def keys (m : FinMap κ β) : List κ := m.entries.map Prod.fst

/-- Looks a key up in a list of entries. -/
def find (k : κ) : List (κ × β) → Option β
  | [] => none
  | e :: l => if compare k e.1 = .eq then some e.2 else find k l

/-- The value at a key, if there is one. -/
def get? (m : FinMap κ β) (k : κ) : Option β := find k m.entries

@[simp] theorem get?_empty {k : κ} : (∅ : FinMap κ β).get? k = none := rfl

/-- The entries whose keys satisfy a test. -/
def filterKeys (p : κ → Bool) (m : FinMap κ β) : FinMap κ β :=
  ⟨m.entries.filter (fun e => p e.1), m.ascending.filter _⟩

/-- Puts an entry into its place in an ascending list, replacing the entry of the same key. -/
def place (k : κ) (b : β) : List (κ × β) → List (κ × β)
  | [] => [(k, b)]
  | e :: l =>
    match compare k e.1 with
    | .lt => (k, b) :: e :: l
    | .eq => (k, b) :: l
    | .gt => e :: place k b l

theorem mem_place {k : κ} {b : β} {e : κ × β} {l : List (κ × β)} (h : e ∈ place k b l) :
    e = (k, b) ∨ e ∈ l := by
  induction l with
  | nil => exact .inl (List.mem_singleton.1 h)
  | cons d l ih =>
    unfold place at h
    split at h
    · exact List.mem_cons.1 h
    · rcases List.mem_cons.1 h with h | h
      · exact .inl h
      · exact .inr (List.mem_cons_of_mem d h)
    · rcases List.mem_cons.1 h with h | h
      · exact .inr (h ▸ List.mem_cons_self)
      · rcases ih h with h | h
        · exact .inl h
        · exact .inr (List.mem_cons_of_mem d h)

theorem find_eq_some_iff [LawfulEqOrd κ] {k : κ} {b : β} {l : List (κ × β)}
    (h : l.Pairwise (fun a b => compare a.1 b.1 = .lt)) : find k l = some b ↔ (k, b) ∈ l := by
  induction l with
  | nil => simp [find]
  | cons d l ih =>
    have hd := List.pairwise_cons.1 h
    rw [find]
    split
    · rename_i hk
      have hk : k = d.1 := LawfulEqOrd.eq_of_compare hk
      subst hk
      constructor
      · intro h
        cases h
        exact List.mem_cons_self
      · intro h
        rcases List.mem_cons.1 h with h | h
        · rw [← h]
        · exact absurd (hd.1 _ h) (by simp)
    · rename_i hk
      rw [ih hd.2]
      constructor
      · exact List.mem_cons_of_mem d
      · intro h
        rcases List.mem_cons.1 h with h | h
        · rw [← h] at hk
          simp at hk
        · exact h

/-- The answers of a map are its entries. -/
theorem get?_eq_some_iff [LawfulEqOrd κ] {m : FinMap κ β} {k : κ} {b : β} :
    m.get? k = some b ↔ (k, b) ∈ m.entries := find_eq_some_iff m.ascending

/-- The answers of a filtered map. -/
theorem get?_filterKeys [LawfulEqOrd κ] {m : FinMap κ β} {p : κ → Bool} {k : κ} :
    (m.filterKeys p).get? k = if p k = true then m.get? k else none := by
  apply Option.ext
  intro b
  rw [get?_eq_some_iff]
  by_cases hp : p k = true <;> simp [filterKeys, hp, get?_eq_some_iff]

section Lawful

variable [TransOrd κ] [LawfulEqOrd κ]

theorem ascending_place {k : κ} {b : β} {l : List (κ × β)}
    (h : l.Pairwise (fun a b => compare a.1 b.1 = .lt)) :
    (place k b l).Pairwise (fun a b => compare a.1 b.1 = .lt) := by
  induction l with
  | nil => simp [place]
  | cons d l ih =>
    have hd := List.pairwise_cons.1 h
    unfold place
    split
    · rename_i hk
      refine List.pairwise_cons.2 ⟨fun e he => ?_, h⟩
      rcases List.mem_cons.1 he with rfl | he
      · exact hk
      · exact TransCmp.lt_trans hk (hd.1 e he)
    · rename_i hk
      have : k = d.1 := LawfulEqOrd.eq_of_compare hk
      exact List.pairwise_cons.2 ⟨fun e he => this ▸ hd.1 e he, hd.2⟩
    · rename_i hk
      refine List.pairwise_cons.2 ⟨fun e he => ?_, ih hd.2⟩
      rcases mem_place he with rfl | he
      · exact OrientedCmp.lt_of_gt hk
      · exact hd.1 e he

/-- The map that answers `b` at `k` and is otherwise unchanged. -/
def insert (k : κ) (b : β) (m : FinMap κ β) : FinMap κ β :=
  ⟨place k b m.entries, ascending_place m.ascending⟩

/-- The map of a list of entries, in which a later entry for a key replaces an earlier one. -/
def ofList (l : List (κ × β)) : FinMap κ β :=
  l.foldl (fun m e => m.insert e.1 e.2) ∅

theorem find_place {k j : κ} {b : β} {l : List (κ × β)} :
    find j (place k b l) = if compare j k = .eq then some b else find j l := by
  induction l with
  | nil => rfl
  | cons d l ih =>
    unfold place
    split
    · rfl
    · rename_i hk
      have : k = d.1 := LawfulEqOrd.eq_of_compare hk
      subst this
      by_cases hj : compare j d.1 = .eq <;> simp [find, hj]
    · rename_i hk
      simp only [find, ih]
      by_cases hj : compare j d.1 = .eq
      · have : j = d.1 := LawfulEqOrd.eq_of_compare hj
        subst this
        have hne : compare d.1 k ≠ .eq := by
          simp [OrientedOrd.eq_swap (a := d.1), hk]
        simp [hne]
      · simp [hj]

/-- **After an insertion the map answers the new value at its key and as before elsewhere.** -/
@[simp] theorem get?_insert [DecidableEq κ] {k j : κ} {b : β} {m : FinMap κ β} :
    (m.insert k b).get? j = if j = k then some b else m.get? j := by
  simp [insert, get?, find_place]

/-- A map made from a list answers with the last entry for the key. -/
theorem get?_ofList [DecidableEq κ] {k : κ} {l : List (κ × β)} :
    (ofList l).get? k = l.reverse.lookup k := by
  have hfold : ∀ m : FinMap κ β,
      (l.foldl (fun m e => m.insert e.1 e.2) m).get? k = (l.reverse.lookup k).or (m.get? k) := by
    induction l with
    | nil => exact fun m => rfl
    | cons e l ih =>
      intro m
      rw [List.foldl_cons, ih, get?_insert, List.reverse_cons, List.lookup_append, Option.or_assoc]
      congr 1
      by_cases h : k = e.1
      · rw [if_pos h, List.lookup_cons, h, beq_self_eq_true, Option.some_or]
      · rw [if_neg h, List.lookup_cons, beq_false_of_ne h, List.lookup_nil, Option.none_or]
  rw [ofList, hfold ∅, get?_empty, Option.or_none]

end Lawful

/-- No key has two entries. -/
theorem pairwise_fst_ne [TransOrd κ] (m : FinMap κ β) :
    m.entries.Pairwise fun d e => d.1 ≠ e.1 :=
  m.ascending.imp fun {d e} h heq => by simp [heq] at h

theorem nodup_keys [TransOrd κ] (m : FinMap κ β) : m.keys.Nodup :=
  List.pairwise_map.2 m.pairwise_fst_ne

/-- **A map is determined by its answers.** -/
theorem ext [TransOrd κ] [LawfulEqOrd κ] {m n : FinMap κ β} (h : ∀ k, m.get? k = n.get? k) :
    m = n := by
  have key : ∀ {l r : List (κ × β)}, l.Pairwise (fun a b => compare a.1 b.1 = .lt) →
      r.Pairwise (fun a b => compare a.1 b.1 = .lt) → (∀ e, e ∈ l ↔ e ∈ r) → l = r := by
    intro l
    induction l with
    | nil =>
      intro r _ _ hlr
      symm
      rw [List.eq_nil_iff_forall_not_mem]
      exact fun e he => List.not_mem_nil ((hlr e).2 he)
    | cons a l ih =>
      intro r hl hr hlr
      cases r with
      | nil => exact absurd ((hlr a).1 List.mem_cons_self) List.not_mem_nil
      | cons b r =>
        have hla := List.pairwise_cons.1 hl
        have hrb := List.pairwise_cons.1 hr
        have hab : a = b := by
          rcases List.mem_cons.1 ((hlr a).1 List.mem_cons_self) with e | ha
          · exact e
          · rcases List.mem_cons.1 ((hlr b).2 List.mem_cons_self) with e | hb
            · exact e.symm
            · exact absurd (hrb.1 a ha) (OrientedCmp.not_lt_of_lt (hla.1 b hb))
        subst hab
        have irrefl : ∀ e : κ × β, compare e.1 e.1 ≠ .lt := fun e => by simp
        refine congrArg (a :: ·) (ih hla.2 hrb.2 fun e => ⟨fun he => ?_, fun he => ?_⟩)
        · rcases List.mem_cons.1 ((hlr e).1 (List.mem_cons_of_mem a he)) with h | h
          · exact absurd (h ▸ hla.1 e he) (irrefl e)
          · exact h
        · rcases List.mem_cons.1 ((hlr e).2 (List.mem_cons_of_mem a he)) with h | h
          · exact absurd (h ▸ hrb.1 e he) (irrefl e)
          · exact h
  have hl := key m.ascending n.ascending (fun e => by
    rw [← get?_eq_some_iff, ← get?_eq_some_iff, h])
  cases m
  cases n
  simp_all

end FinMap

end Automata
