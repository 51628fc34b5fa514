import Automata.Refinement
import Automata.Proofs.Naming
import Mathlib.Data.Finset.Card
import Mathlib.Data.Finset.Image
import Mathlib.Data.List.Dedup

/-!
# Refinement separates points by their futures

A round can only split classes.  It never splits points with the same future, and once a round
yields no further class it has not split any, so that the classes are respected by the successors.

## What is here

* `numberFirsts_eq_iff` and `mem_numberFirsts` — numbering keeps entries apart and leaves no number
  out, whatever the numbers were in the round before.
* `Refines` — one classification splits another, which yields at least as many classes
  (`Refines.count_le`), and `Refines.symm_of_count_le` — **a split that yields no further class
  splits nothing.**
* `PointTable.future` — whether a sequence of symbols leads from a point to an accepting one.
* `PointTable.Coarse` — what every round keeps: points with the same future are together, and
  accepting points are apart from the others.
* `PointTable.classes_eq_iff` — **at the end two points are in one class exactly if they have the
  same future.**
-/

set_option autoImplicit false

namespace Automata

/-! ## Numbering -/

theorem nodup_eraseDups {σ : Type} [BEq σ] [LawfulBEq σ] (l : List σ) : l.eraseDups.Nodup := by
  induction hn : l.length using Nat.strong_induction_on generalizing l with
  | _ n ih =>
    cases l with
    | nil => exact .nil
    | cons a l =>
      have hlt : (l.filter fun b => !b == a).length < n :=
        hn ▸ Nat.lt_succ_of_le (List.length_filter_le _ _)
      rw [List.eraseDups_cons, List.nodup_cons]
      refine ⟨fun hm => ?_, ih _ hlt _ rfl⟩
      rw [List.mem_eraseDups, List.mem_filter] at hm
      simp at hm

/-- The number of different entries is the number of members. -/
theorem countDifferent_eq_card (l : List Nat) : countDifferent l = l.toFinset.card := by
  rw [countDifferent, List.card_toFinset]
  refine List.Perm.length_eq ((List.perm_ext_iff_of_nodup (nodup_eraseDups l) l.nodup_dedup).2 ?_)
  intro a
  rw [List.mem_eraseDups, List.mem_dedup]

/-- The members of an image are the images of the members. -/
theorem toFinset_map (g : Nat → Nat) (l : List Nat) :
    (l.map g).toFinset = l.toFinset.image g := by
  ext k
  simp only [List.mem_toFinset, List.mem_map, Finset.mem_image]

theorem length_numberFirsts {σ : Type} [BEq σ] (l : List σ) :
    (numberFirsts l).length = l.length := List.length_map _

section Numbering

variable {σ : Type} [BEq σ] [LawfulBEq σ] {l : List σ}

/-- Entries have equal numbers exactly if they are equal. -/
theorem numberFirsts_eq_iff {p q : Nat} :
    (numberFirsts l)[p]? = (numberFirsts l)[q]? ↔ l[p]? = l[q]? := by
  rw [numberFirsts, List.getElem?_map, List.getElem?_map]
  refine ⟨fun h => ?_, fun h => ?_⟩
  · cases hp : l[p]? with
    | none =>
      rw [hp, Option.map_none, eq_comm, Option.map_eq_none_iff] at h
      exact h.symm
    | some s =>
      rw [hp, Option.map_some, eq_comm, Option.map_eq_some_iff] at h
      obtain ⟨s', hq, hs⟩ := h
      have hs' : s' ∈ l.eraseDups := List.mem_eraseDups.2 (List.mem_of_getElem? hq)
      rw [hq, (List.idxOf_inj hs').1 hs]
  · rw [h]

/-- The numbers are those below the number of different entries. -/
theorem mem_numberFirsts {c : Nat} : c ∈ numberFirsts l ↔ c < l.eraseDups.length := by
  rw [numberFirsts, List.mem_map]
  refine ⟨?_, fun h => ?_⟩
  · rintro ⟨s, hs, rfl⟩
    exact List.idxOf_lt_length_iff.2 (List.mem_eraseDups.2 hs)
  · refine ⟨l.eraseDups[c], List.mem_eraseDups.1 (List.getElem_mem h), ?_⟩
    exact (nodup_eraseDups l).idxOf_getElem c h

theorem countDifferent_numberFirsts : countDifferent (numberFirsts l) = l.eraseDups.length := by
  have hset : (numberFirsts l).toFinset = Finset.range l.eraseDups.length := by
    ext c
    rw [List.mem_toFinset, mem_numberFirsts, Finset.mem_range]
  rw [countDifferent_eq_card, hset, Finset.card_range]

end Numbering

/-! ## Splitting -/

/-- The classification `cs` splits the classification `ds`: what is together in `cs` is together in
`ds`. -/
structure Refines (cs ds : List Nat) : Prop where
  /-- Both classify the same points. -/
  length_eq : cs.length = ds.length
  /-- Points of one class in `cs` are in one class in `ds`. -/
  together : ∀ p q : Nat, cs[p]? = cs[q]? → ds[p]? = ds[q]?

namespace Refines

variable {cs ds : List Nat}

/-- The coarser classes are a function of the finer ones. -/
theorem exists_map (h : Refines cs ds) : ∃ g : Nat → Nat, ds = cs.map g := by
  refine ⟨fun k => ds[cs.idxOf k]?.getD 0, List.ext_getElem? fun p => ?_⟩
  rw [List.getElem?_map]
  cases hp : cs[p]? with
  | none =>
    rw [Option.map_none, List.getElem?_eq_none_iff, ← h.length_eq]
    exact List.getElem?_eq_none_iff.1 hp
  | some k =>
    have hk : cs[cs.idxOf k]? = some k := by
      have hlt := List.idxOf_lt_length_iff.2 (List.mem_of_getElem? hp)
      rw [List.getElem?_eq_getElem hlt, List.getElem_idxOf]
    have hdp : p < ds.length := h.length_eq ▸ (List.getElem?_eq_some_iff.1 hp).1
    rw [Option.map_some, h.together _ _ (hk.trans hp.symm), List.getElem?_eq_getElem hdp,
      Option.getD_some]

/-- A split yields at least as many classes. -/
theorem count_le (h : Refines cs ds) : countDifferent ds ≤ countDifferent cs := by
  obtain ⟨g, rfl⟩ := h.exists_map
  rw [countDifferent_eq_card, countDifferent_eq_card, toFinset_map]
  exact Finset.card_image_le

/-- **A split that yields no further class splits nothing.** -/
theorem symm_of_count_le (h : Refines cs ds) (hcount : countDifferent cs ≤ countDifferent ds) :
    Refines ds cs := by
  obtain ⟨g, rfl⟩ := h.exists_map
  have hcard : (cs.toFinset.image g).card = cs.toFinset.card := by
    rw [countDifferent_eq_card, countDifferent_eq_card, toFinset_map] at hcount
    exact Nat.le_antisymm Finset.card_image_le hcount
  -- a map between finite sets that loses no member is injective
  have hinj := Finset.card_image_iff.1 hcard
  refine ⟨List.length_map _, fun p q hpq => ?_⟩
  rw [List.getElem?_map, List.getElem?_map] at hpq
  cases hp : cs[p]? with
  | none =>
    rw [hp, Option.map_none, eq_comm, Option.map_eq_none_iff] at hpq
    exact hpq.symm
  | some k =>
    rw [hp, Option.map_some, eq_comm, Option.map_eq_some_iff] at hpq
    obtain ⟨k', hq, hk⟩ := hpq
    have hmem : ∀ {r j}, cs[r]? = some j → j ∈ (cs.toFinset : Set Nat) := fun hr =>
      Finset.mem_coe.2 (List.mem_toFinset.2 (List.mem_of_getElem? hr))
    rw [hq, hinj (hmem hq) (hmem hp) hk]

end Refines

/-! ## Points and their futures -/

namespace PointTable

variable {t : PointTable} {width : Nat}

/-- Every point is accepting or not, has `width` successors, and all of them are points. -/
structure Regular (t : PointTable) (width : Nat) : Prop where
  /-- For every point it is said whether it is accepting. -/
  length_accepting : t.accepting.length = t.rows.length
  /-- All points have the same number of successors. -/
  length_row : ∀ row ∈ t.rows, row.length = width
  /-- Successors are points. -/
  lt_of_mem : ∀ row ∈ t.rows, ∀ p ∈ row, p < t.rows.length

/-- The successor of `p` on the symbol with the number `i`. -/
def succ? (t : PointTable) (p i : Nat) : Option Nat := t.rows[p]?.bind fun row => row[i]?

/-- Whether a sequence of symbols leads from a point to an accepting one. -/
def future (t : PointTable) (p : Nat) : List Nat → Bool
  | [] => t.accepting[p]? == some true
  | i :: w =>
    match t.succ? p i with
    | some q => future t q w
    | none => false

/-- Nothing that follows tells the points apart. -/
def SameFuture (t : PointTable) (p q : Nat) : Prop := ∀ w, t.future p w = t.future q w

/-- In a regular table a point has a successor for every symbol, and for nothing else. -/
theorem Regular.exists_succ_iff (ht : t.Regular width) {p : Nat} (hp : p < t.rows.length)
    {i : Nat} : (∃ q, t.succ? p i = some q) ↔ i < width := by
  have hrow := ht.length_row _ (List.getElem_mem hp)
  rw [succ?, List.getElem?_eq_getElem hp, Option.bind_some, ← hrow]
  simp [List.getElem?_eq_some_iff]

/-- Successors are points. -/
theorem Regular.succ_lt (ht : t.Regular width) {p i q : Nat} (h : t.succ? p i = some q) :
    q < t.rows.length := by
  obtain ⟨row, hrow, hq⟩ := Option.bind_eq_some_iff.1 h
  exact ht.lt_of_mem row (List.mem_of_getElem? hrow) q (List.mem_of_getElem? hq)

/-- In a regular table a symbol leads on from all points or from none. -/
theorem Regular.succ?_cases (ht : t.Regular width) {p q : Nat} (hp : p < t.rows.length)
    (hq : q < t.rows.length) (i : Nat) :
    (t.succ? p i = none ∧ t.succ? q i = none) ∨
      ∃ r s, t.succ? p i = some r ∧ t.succ? q i = some s ∧ r < t.rows.length
        ∧ s < t.rows.length := by
  by_cases hi : i < width
  · obtain ⟨r, hr⟩ := (ht.exists_succ_iff hp).2 hi
    obtain ⟨s, hs⟩ := (ht.exists_succ_iff hq).2 hi
    exact .inr ⟨r, s, hr, hs, ht.succ_lt hr, ht.succ_lt hs⟩
  · have hnone : ∀ {x : Nat}, x < t.rows.length → t.succ? x i = none := fun hx =>
      Option.eq_none_iff_forall_ne_some.2 fun r hr => hi ((ht.exists_succ_iff hx).1 ⟨r, hr⟩)
    exact .inl ⟨hnone hp, hnone hq⟩

/-- Points with the same future have successors with the same future. -/
theorem SameFuture.succ {p q i r s : Nat} (h : t.SameFuture p q) (hr : t.succ? p i = some r)
    (hs : t.succ? q i = some s) : t.SameFuture r s := by
  intro w
  have hw := h (i :: w)
  rw [future, hr, future, hs] at hw
  exact hw

/-- Points with the same future are both accepting or both not. -/
theorem SameFuture.accepting_eq (ht : t.Regular width) {p q : Nat} (hp : p < t.rows.length)
    (hq : q < t.rows.length) (h : t.SameFuture p q) : t.accepting[p]? = t.accepting[q]? := by
  have hw := h []
  rw [future, future] at hw
  obtain ⟨b, hb⟩ : ∃ b, t.accepting[p]? = some b :=
    ⟨_, List.getElem?_eq_getElem (ht.length_accepting ▸ hp)⟩
  obtain ⟨b', hb'⟩ : ∃ b', t.accepting[q]? = some b' :=
    ⟨_, List.getElem?_eq_getElem (ht.length_accepting ▸ hq)⟩
  rw [hb, hb'] at hw ⊢
  cases b <;> cases b' <;> first | rfl | cases hw

/-! ## One round -/

/-- The class of the successor, which is what a round looks at. -/
def classAfter (t : PointTable) (cs : List Nat) (p i : Nat) : Option Nat :=
  (t.succ? p i).bind fun r => cs[r]?

theorem length_signatures {cs : List Nat} (hc : cs.length = t.rows.length) :
    (t.signatures cs).length = t.rows.length := by
  rw [signatures, List.length_zipWith, hc, Nat.min_self]

theorem length_refine {cs : List Nat} (hc : cs.length = t.rows.length) :
    (t.refine cs).length = t.rows.length := by
  rw [refine, length_numberFirsts, length_signatures hc]

/-- In a regular table, rows show equal classes exactly if successors have equal classes. -/
theorem Regular.map_row_eq_iff (ht : t.Regular width) {cs : List Nat} {p q : Nat}
    (hp : p < t.rows.length) (hq : q < t.rows.length) :
    (t.rows[p].map fun r => cs[r]?) = (t.rows[q].map fun r => cs[r]?) ↔
      ∀ i, t.classAfter cs p i = t.classAfter cs q i := by
  have hrow : ∀ {r} (hr : r < t.rows.length) (i : Nat),
      (t.rows[r].map fun s => cs[s]?)[i]? = (t.succ? r i).map fun s => cs[s]? := by
    intro r hr i
    rw [List.getElem?_map, succ?, List.getElem?_eq_getElem hr, Option.bind_some]
  rw [List.ext_getElem?_iff]
  refine forall_congr' fun i => ?_
  rw [hrow hp, hrow hq, classAfter, classAfter]
  rcases ht.succ?_cases hp hq i with ⟨hr, hs⟩ | ⟨r, s, hr, hs, _⟩
  · rw [hr, hs]
    exact iff_of_true rfl rfl
  · rw [hr, hs, Option.map_some, Option.map_some, Option.some_inj, Option.bind_some,
      Option.bind_some]

/-- Points stay together exactly if their classes agree and the classes of their successors do. -/
theorem refine_eq_iff (ht : t.Regular width) {cs : List Nat} (hc : cs.length = t.rows.length)
    {p q : Nat} (hp : p < t.rows.length) (hq : q < t.rows.length) :
    (t.refine cs)[p]? = (t.refine cs)[q]? ↔
      cs[p]? = cs[q]? ∧ ∀ i, t.classAfter cs p i = t.classAfter cs q i := by
  have hcp : p < cs.length := hc ▸ hp
  have hcq : q < cs.length := hc ▸ hq
  rw [refine, numberFirsts_eq_iff, signatures, List.getElem?_zipWith, List.getElem?_zipWith,
    List.getElem?_eq_getElem hcp, List.getElem?_eq_getElem hcq, List.getElem?_eq_getElem hp,
    List.getElem?_eq_getElem hq, ← ht.map_row_eq_iff hp hq]
  simp only [Option.some.injEq, Prod.mk.injEq]

/-- A round only splits. -/
theorem refines_refine (ht : t.Regular width) {cs : List Nat} (hc : cs.length = t.rows.length) :
    Refines (t.refine cs) cs := by
  have hlen := length_refine hc
  refine ⟨hlen.trans hc.symm, fun p q h => ?_⟩
  by_cases hp : p < t.rows.length
  · have hq : q < t.rows.length := by
      rw [List.getElem?_eq_getElem (hlen ▸ hp)] at h
      exact hlen ▸ (List.getElem?_eq_some_iff.1 h.symm).1
    exact ((refine_eq_iff ht hc hp hq).1 h).1
  · have hq : ¬ q < t.rows.length := by
      intro hq
      rw [List.getElem?_eq_none (by omega), List.getElem?_eq_getElem (hlen ▸ hq)] at h
      cases h
    rw [List.getElem?_eq_none (by omega), List.getElem?_eq_none (by omega)]

/-! ## All rounds -/

/-- What every round keeps. -/
structure Coarse (t : PointTable) (cs : List Nat) : Prop where
  /-- All points are classified. -/
  length_eq : cs.length = t.rows.length
  /-- Points with the same future are never split. -/
  of_sameFuture : ∀ p q, p < t.rows.length → q < t.rows.length → t.SameFuture p q →
    cs[p]? = cs[q]?
  /-- Accepting points are apart from the others. -/
  accepting_eq : ∀ p q, p < t.rows.length → q < t.rows.length → cs[p]? = cs[q]? →
    t.accepting[p]? = t.accepting[q]?

/-- What holds once a round splits nothing: the successors respect the classes. -/
structure Settled (t : PointTable) (cs : List Nat) : Prop extends Coarse t cs where
  /-- Points of one class have successors in the same classes. -/
  classAfter_eq : ∀ p q, p < t.rows.length → q < t.rows.length → cs[p]? = cs[q]? →
    ∀ i, t.classAfter cs p i = t.classAfter cs q i

theorem Coarse.initial (ht : t.Regular width) : t.Coarse t.initial := by
  have hget : ∀ p : Nat, t.initial[p]? = t.accepting[p]?.map Bool.toNat := fun p => by
    rw [PointTable.initial, List.getElem?_map]
  refine ⟨?_, fun p q hp hq h => ?_, fun p q hp hq h => ?_⟩
  · rw [PointTable.initial, List.length_map, ht.length_accepting]
  · rw [hget, hget, h.accepting_eq ht hp hq]
  · rw [hget, hget] at h
    exact Option.map_injective (fun b b' => by cases b <;> cases b' <;> simp) h

theorem Coarse.refine (ht : t.Regular width) {cs : List Nat} (h : t.Coarse cs) :
    t.Coarse (t.refine cs) := by
  refine ⟨length_refine h.length_eq, fun p q hp hq hsame => ?_, fun p q hp hq heq => ?_⟩
  · rw [refine_eq_iff ht h.length_eq hp hq]
    refine ⟨h.of_sameFuture p q hp hq hsame, fun i => ?_⟩
    rw [classAfter, classAfter]
    rcases ht.succ?_cases hp hq i with ⟨hr, hs⟩ | ⟨r, s, hr, hs, hrlt, hslt⟩
    · rw [hr, hs]
    · rw [hr, hs, Option.bind_some, Option.bind_some]
      exact h.of_sameFuture r s hrlt hslt (hsame.succ hr hs)
  · exact h.accepting_eq p q hp hq ((refine_eq_iff ht h.length_eq hp hq).1 heq).1

/-- A round that yields no further class ends the refinement. -/
theorem Coarse.settled (ht : t.Regular width) {cs : List Nat} (h : t.Coarse cs)
    (hcount : countDifferent (t.refine cs) ≤ countDifferent cs) : t.Settled (t.refine cs) := by
  refine ⟨h.refine ht, fun p q hp hq heq i => ?_⟩
  -- the round says that the successors agree in `cs`, and it has split nothing of that
  have hback := (refines_refine ht h.length_eq).symm_of_count_le hcount
  have hclass := ((refine_eq_iff ht h.length_eq hp hq).1 heq).2 i
  rw [classAfter, classAfter] at hclass ⊢
  rcases ht.succ?_cases hp hq i with ⟨hr, hs⟩ | ⟨r, s, hr, hs, _⟩
  · rw [hr, hs]
  · rw [hr, hs] at hclass ⊢
    exact hback.together r s hclass

theorem stable_settled (ht : t.Regular width) {cs : List Nat} (h : t.Coarse cs) :
    t.Settled (t.stable cs) := by
  induction cs using stable.induct t with
  | case1 cs refined hlt ih =>
    rw [stable, if_pos hlt]
    exact ih (h.refine ht)
  | case2 cs refined hle =>
    rw [stable, if_neg hle]
    exact h.settled ht (Nat.le_of_not_lt hle)

theorem classes_settled (ht : t.Regular width) : t.Settled t.classes :=
  stable_settled ht (.initial ht)

/-- Points of one class have the same future, as every symbol leads to one class again. -/
theorem Settled.sameFuture (ht : t.Regular width) {cs : List Nat} (h : t.Settled cs) {p q : Nat}
    (hp : p < t.rows.length) (hq : q < t.rows.length) (heq : cs[p]? = cs[q]?) :
    t.SameFuture p q := by
  intro w
  induction w generalizing p q with
  | nil => rw [future, future, h.accepting_eq p q hp hq heq]
  | cons i w ih =>
    have hclass := h.classAfter_eq p q hp hq heq i
    rw [classAfter, classAfter] at hclass
    rw [future, future]
    rcases ht.succ?_cases hp hq i with ⟨hr, hs⟩ | ⟨r, s, hr, hs, hrlt, hslt⟩
    · rw [hr, hs]
    · rw [hr, hs] at hclass ⊢
      exact ih hrlt hslt hclass

/-- **At the end two points are in one class exactly if they have the same future.** -/
theorem classes_eq_iff (ht : t.Regular width) {p q : Nat} (hp : p < t.rows.length)
    (hq : q < t.rows.length) : t.classes[p]? = t.classes[q]? ↔ t.SameFuture p q :=
  ⟨(classes_settled ht).sameFuture ht hp hq, (classes_settled ht).of_sameFuture p q hp hq⟩

/-! ## Blocks -/

/-- The classes are the numbers below their count. -/
theorem mem_stable {cs : List Nat} {k : Nat} :
    k ∈ t.stable cs ↔ k < countDifferent (t.stable cs) := by
  induction cs using stable.induct t with
  | case1 cs refined hlt ih =>
    rw [stable, if_pos hlt]
    exact ih
  | case2 cs refined hle =>
    rw [stable, if_neg hle, refine, countDifferent_numberFirsts, mem_numberFirsts]

theorem mem_classes {k : Nat} : k ∈ t.classes ↔ k < countDifferent t.classes := mem_stable

/-- A block holds the points of its class. -/
theorem mem_block {cs : List Nat} {k p : Nat} :
    p ∈ FinSet.ofList ((List.range cs.length).filter fun p => cs[p]? = some k) ↔
      cs[p]? = some k := by
  rw [FinSet.mem_ofList, List.mem_filter, List.mem_range, decide_eq_true_eq]
  exact and_iff_right_of_imp fun h => (List.getElem?_eq_some_iff.1 h).1

theorem getElem?_blocks {cs : List Nat} {k : Nat} {block : FinSet Nat} :
    (blocks cs).classes[k]? = some block ↔ k < countDifferent cs ∧
      block = FinSet.ofList ((List.range cs.length).filter fun p => cs[p]? = some k) := by
  rw [blocks, List.getElem?_map, Option.map_eq_some_iff]
  simp only [List.getElem?_eq_some_iff, List.getElem_range, List.length_range]
  refine ⟨?_, ?_⟩
  · rintro ⟨j, ⟨hk, rfl⟩, rfl⟩
    exact ⟨hk, rfl⟩
  · rintro ⟨hk, rfl⟩
    exact ⟨k, ⟨hk, rfl⟩, rfl⟩

end PointTable

end Automata
