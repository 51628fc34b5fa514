import Automata.Proofs.Refinement
import Automata.Proofs.TabulatedLookups

/-!
# The lookups of partition refinement

A round of refinement looks up the class of every point and of its successors.  In the end every
point is put into the block that has the number of its class, and from the blocks the classes are
read off again.  Here each of these lookups may fail.

## What is here

* `PointTable.refine?`, `PointTable.stable?` — a round, and rounds until no further class appears.
* `PointTable.fill?`, `PointTable.blocks?` — points are put into blocks; `PointTable.partition?` —
  all of it.
* `PointTable.assign?`, `PointTable.classesOf?` — the classes as they are read off the blocks.
* `PointTable.refine?_eq`, `PointTable.blocks?_eq`, `PointTable.classesOf?_eq` — each of these finds
  all that it looks up, and `PointTable.partition?_eq` — **refinement of a regular table does.**
-/

set_option autoImplicit false

namespace Automata

namespace PointTable

variable {t : PointTable} {width : Nat} {classes : List Nat}

/-! ## Rounds -/

/-- The class of a point and the classes of its successors, from its row and its number.  All of
them must be there. -/
def signature? (classes : List Nat) (entry : List Nat × Nat) :
    Option (Nat × List (Option Nat)) := do
  let c ← classes[entry.2]?
  let successors ← entry.1.mapM fun p => classes[p]?
  return (c, successors.map some)

/-- One round of refinement. -/
def refine? (t : PointTable) (classes : List Nat) : Option (List Nat) :=
  (t.rows.zipIdx.mapM (signature? classes)).map numberFirsts

theorem length_of_mapM_eq_some {α β : Type} {f : α → Option β} {l : List α} {bs : List β}
    (h : l.mapM f = some bs) : bs.length = l.length := by
  induction l generalizing bs with
  | nil => simp_all
  | cons a l ih =>
    simp only [List.mapM_cons, Option.bind_eq_bind, Option.bind_eq_some_iff, Option.pure_def,
      Option.some.injEq] at h
    obtain ⟨b, _, bs', hbs', rfl⟩ := h
    simp [ih hbs']

theorem countDifferent_le_of_refine? {refined : List Nat} (h : t.refine? classes = some refined) :
    countDifferent refined ≤ t.rows.length := by
  obtain ⟨signatures, hsignatures, rfl⟩ := Option.map_eq_some_iff.1 h
  have hlen := length_of_mapM_eq_some hsignatures
  calc countDifferent (numberFirsts signatures)
      ≤ (numberFirsts signatures).length := length_eraseDups_le _
    _ = t.rows.length := by rw [length_numberFirsts, hlen, List.length_zipIdx]

/-- Rounds until no further class appears, if none of them fails. -/
def stable? (t : PointTable) (classes : List Nat) : Option (List Nat) :=
  match _ : t.refine? classes with
  | none => none
  | some refined =>
    if countDifferent classes < countDifferent refined then stable? t refined else some refined
termination_by t.rows.length - countDifferent classes
decreasing_by
  have hle := countDifferent_le_of_refine? (by assumption)
  omega

/-- **A round finds all classes that it looks up.** -/
theorem refine?_eq (ht : t.Regular width) (hc : classes.length = t.rows.length) :
    t.refine? classes = some (t.refine classes) := by
  have hclass : ∀ p < t.rows.length, classes[p]? = some (classes[p]?.getD 0) := fun p hp => by
    rw [List.getElem?_eq_getElem (hc ▸ hp), Option.getD_some]
  have hentry : ∀ entry ∈ t.rows.zipIdx, signature? classes entry =
      some (classes[entry.2]?.getD 0, entry.1.map fun p => classes[p]?) := by
    rintro ⟨row, q⟩ hentry
    have hrow : t.rows[q]? = some row := List.mk_mem_zipIdx_iff_getElem?.1 hentry
    have hsuccessors : ∀ p ∈ row, classes[p]? = some (classes[p]?.getD 0) :=
      fun p hp => hclass p (ht.lt_of_mem row (List.mem_of_getElem? hrow) p hp)
    have hsome : (row.map fun p => classes[p]?.getD 0).map some = row.map fun p => classes[p]? := by
      rw [List.map_map]
      exact List.map_congr_left fun p hp => (hsuccessors p hp).symm
    rw [signature?, hclass q (List.getElem?_eq_some_iff.1 hrow).1, mapM_eq_some_map hsuccessors,
      ← hsome]
    rfl
  have hsignatures : (t.rows.zipIdx.map fun entry =>
      (classes[entry.2]?.getD 0, entry.1.map fun p => classes[p]?)) = t.signatures classes := by
    refine List.ext_getElem? fun q => ?_
    rw [signatures, List.getElem?_map, List.getElem?_zipIdx, List.getElem?_zipWith]
    cases hq : t.rows[q]? with
    | none => cases classes[q]? <;> rfl
    | some row =>
      rw [hclass q (List.getElem?_eq_some_iff.1 hq).1]
      simp
  rw [refine?, mapM_eq_some_map hentry, hsignatures]
  rfl

theorem stable?_of_some {refined : List Nat} (h : t.refine? classes = some refined) :
    t.stable? classes =
      if countDifferent classes < countDifferent refined then t.stable? refined
      else some refined := by
  rw [stable?]
  split
  · simp_all
  · simp_all

/-- No round fails until there are no further classes. -/
theorem stable?_eq (ht : t.Regular width) (hc : classes.length = t.rows.length) :
    t.stable? classes = some (t.stable classes) := by
  induction classes using stable.induct t with
  | case1 classes refined hlt ih =>
    rw [stable?_of_some (refine?_eq ht hc), if_pos hlt, stable, if_pos hlt]
    exact ih (length_refine hc)
  | case2 classes refined hle =>
    rw [stable?_of_some (refine?_eq ht hc), if_neg hle, stable, if_neg hle]

/-! ## Blocks -/

/-- Puts a point into the block of its class, which must be there. -/
def fill? (blocks : List (FinSet Nat)) (entry : Nat × Nat) : Option (List (FinSet Nat)) := do
  let block ← blocks[entry.1]?
  return blocks.set entry.1 (block.insert entry.2)

/-- Puts all points into blocks. -/
def blocks? (classes : List Nat) : Option (Partition Nat) :=
  (classes.zipIdx.foldlM fill? (List.replicate (countDifferent classes) ∅)).map Partition.mk

/-- The coarsest partition, if no lookup fails. -/
def partition? (t : PointTable) : Option (Partition Nat) := do blocks? (← t.stable? t.initial)

/-- There are `n` blocks, and each holds the points that have been put into it. -/
structure Filled (n : Nat) (entered : List (Nat × Nat)) (bs : List (FinSet Nat)) : Prop where
  /-- No block is added, and none is lost. -/
  length_eq : bs.length = n
  /-- A block holds the points of its class. -/
  mem_iff : ∀ c block, bs[c]? = some block → ∀ p, p ∈ block ↔ (c, p) ∈ entered

theorem Filled.nil (n : Nat) : Filled n [] (List.replicate n ∅) where
  length_eq := List.length_replicate
  mem_iff c block hblock p := by
    rw [List.eq_of_mem_replicate (List.mem_of_getElem? hblock)]
    simp

/-- A point can be put into its block if there are enough blocks. -/
theorem Filled.fill {n c : Nat} {entered : List (Nat × Nat)} {bs : List (FinSet Nat)}
    (h : Filled n entered bs) (hc : c < n) (p : Nat) :
    ∃ bs', fill? bs (c, p) = some bs' ∧ Filled n (entered ++ [(c, p)]) bs' := by
  have hlt : c < bs.length := h.length_eq ▸ hc
  have hget := List.getElem?_eq_getElem hlt
  refine ⟨bs.set c (bs[c].insert p), ?_, ?_, fun k block hblock q => ?_⟩
  · rw [fill?, hget]
    rfl
  · rw [List.length_set, h.length_eq]
  · by_cases hk : c = k
    · subst hk
      rw [List.getElem?_set_self hlt, Option.some_inj] at hblock
      rw [← hblock, FinSet.mem_insert, h.mem_iff c _ hget]
      simp [or_comm]
    · rw [List.getElem?_set_ne hk] at hblock
      rw [h.mem_iff k block hblock]
      simp [Ne.symm hk]

/-- **All points can be put into blocks if the classes are numbered without gaps.** -/
theorem blocks?_eq (h : ∀ c ∈ classes, c < countDifferent classes) :
    blocks? classes = some (blocks classes) := by
  have hstep : ∀ front entry bs, entry ∈ classes.zipIdx →
      Filled (countDifferent classes) front bs →
        ∃ bs', fill? bs entry = some bs' ∧
          Filled (countDifferent classes) (front ++ [entry]) bs' := by
    intro front entry bs hentry hbs
    have hc := List.mem_of_getElem? (List.mk_mem_zipIdx_iff_getElem?.1 hentry)
    exact hbs.fill (h entry.1 hc) entry.2
  obtain ⟨bs, hbs, hfilled⟩ := exists_foldlM (Filled.nil _) hstep
  have hblocks : bs = (blocks classes).classes := by
    refine List.ext_getElem? fun c => Option.ext fun block => ?_
    rw [getElem?_blocks]
    constructor
    · intro hblock
      refine ⟨hfilled.length_eq ▸ (List.getElem?_eq_some_iff.1 hblock).1, FinSet.ext fun p => ?_⟩
      rw [mem_block, hfilled.mem_iff c block hblock, List.mk_mem_zipIdx_iff_getElem?]
    · rintro ⟨hc, rfl⟩
      rw [← hfilled.length_eq] at hc
      rw [List.getElem?_eq_getElem hc, Option.some_inj]
      refine FinSet.ext fun p => ?_
      rw [mem_block, hfilled.mem_iff c _ (List.getElem?_eq_getElem hc),
        List.mk_mem_zipIdx_iff_getElem?]
  rw [blocks?, hbs, hblocks]
  rfl

/-- **Refinement of a regular table finds all that it looks up**, and yields the partition. -/
theorem partition?_eq (ht : t.Regular width) : t.partition? = some t.partition := by
  have hstable := stable?_eq ht (Coarse.initial ht).length_eq
  have hclasses : ∀ c ∈ t.stable t.initial, c < countDifferent (t.stable t.initial) :=
    fun c hc => mem_stable.1 hc
  rw [partition?, hstable]
  exact blocks?_eq hclasses

/-! ## From the blocks back to the classes -/

/-- Notes the class of a point, for which there must be a place. -/
def assign? (classes : List Nat) (entry : Nat × Nat) : Option (List Nat) :=
  if entry.2 < classes.length then some (classes.set entry.2 entry.1) else none

/-- The classes with their points, block by block. -/
def entries (blocks : List (FinSet Nat)) : List (Nat × Nat) :=
  blocks.zipIdx.flatMap fun entry => entry.1.toList.map fun p => (entry.2, p)

/-- The classes of `n` points as the blocks have them. -/
def classesOf? (n : Nat) (blocks : List (FinSet Nat)) : Option (List Nat) :=
  (entries blocks).foldlM assign? (List.replicate n 0)

theorem mem_entries {bs : List (FinSet Nat)} {c p : Nat} :
    (c, p) ∈ entries bs ↔ ∃ block, bs[c]? = some block ∧ p ∈ block := by
  simp only [entries, List.mem_flatMap, List.mem_map, Prod.exists, Prod.mk.injEq,
    List.mk_mem_zipIdx_iff_getElem?, FinSet.mem_toList]
  constructor
  · rintro ⟨block, k, hblock, p, hp, rfl, rfl⟩
    exact ⟨block, hblock, hp⟩
  · rintro ⟨block, hblock, hp⟩
    exact ⟨block, c, hblock, p, hp, rfl, rfl⟩

/-- Every point is in the block of its class, and in no other. -/
theorem mem_entries_blocks (h : ∀ c ∈ classes, c < countDifferent classes) {c p : Nat} :
    (c, p) ∈ entries (blocks classes).classes ↔ classes[p]? = some c := by
  simp only [mem_entries, getElem?_blocks]
  constructor
  · rintro ⟨_, ⟨_, rfl⟩, hp⟩
    exact mem_block.1 hp
  · intro hp
    exact ⟨_, ⟨h c (List.mem_of_getElem? hp), rfl⟩, mem_block.2 hp⟩

/-- There is a place for every point, and the points that have been entered have their classes. -/
structure Noted (classes : List Nat) (entered : List (Nat × Nat)) (noted : List Nat) : Prop where
  /-- No place is added, and none is lost. -/
  length_eq : noted.length = classes.length
  /-- The class of an entered point has been noted. -/
  getElem?_eq : ∀ entry ∈ entered, noted[entry.2]? = classes[entry.2]?

theorem Noted.nil (classes : List Nat) : Noted classes [] (List.replicate classes.length 0) where
  length_eq := List.length_replicate
  getElem?_eq := by simp

/-- The class of a point can be noted. -/
theorem Noted.assign {entered : List (Nat × Nat)} {noted : List Nat}
    (h : Noted classes entered noted) {c p : Nat} (hp : classes[p]? = some c) :
    ∃ noted', assign? noted (c, p) = some noted' ∧ Noted classes (entered ++ [(c, p)]) noted' := by
  have hlt : p < noted.length := h.length_eq ▸ (List.getElem?_eq_some_iff.1 hp).1
  refine ⟨noted.set p c, by rw [assign?, if_pos hlt], by rw [List.length_set, h.length_eq], ?_⟩
  intro entry hentry
  by_cases heq : p = entry.2
  · rw [← heq, List.getElem?_set_self hlt, hp]
  · rw [List.getElem?_set_ne heq]
    refine h.getElem?_eq entry ((List.mem_append.1 hentry).resolve_right fun hlast => heq ?_)
    rw [List.mem_singleton.1 hlast]

/-- **From the blocks the same classes are read off.** -/
theorem classesOf?_eq (h : ∀ c ∈ classes, c < countDifferent classes) :
    classesOf? classes.length (blocks classes).classes = some classes := by
  have hstep : ∀ front entry noted, entry ∈ entries (blocks classes).classes →
      Noted classes front noted →
        ∃ noted', assign? noted entry = some noted' ∧ Noted classes (front ++ [entry]) noted' := by
    intro front entry noted hentry hnoted
    exact hnoted.assign ((mem_entries_blocks h).1 hentry)
  obtain ⟨noted, hnoted, hlen, hclass⟩ := exists_foldlM (Noted.nil classes) hstep
  have hall : noted = classes := by
    refine List.ext_getElem? fun p => ?_
    by_cases hp : p < classes.length
    · exact hclass _ ((mem_entries_blocks h).2 (List.getElem?_eq_getElem hp))
    · rw [List.getElem?_eq_none (by omega), List.getElem?_eq_none (by omega)]
  rw [classesOf?, hnoted, hall]

end PointTable

end Automata
