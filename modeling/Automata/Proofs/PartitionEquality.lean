import Automata.Proofs.RefinementRounds

/-!
# Where the comparison of partitions is an equality

Partitions are compared in one direction only: there have to be as many classes on both sides, and
those of the first have to be among those of the second.  If the first lists no class twice, then
its classes leave no room for another one in the second, and the comparison says what it should.
If it lists a class twice, one of the two may stand against a class that the first does not have.
The comparison still holds then, but not the other way round.

## What is here

* `Partition.ofLists_toList` — what is said of all partitions is said of those made from lists.
* `Partition.covers_refl`, `Partition.covers_trans` — what holds of all lists of classes.
* `Partition.covers_iff_perm` — **the comparison is exact from a partition without repeated
  classes**, as are those with disjoint and non-empty classes (`Partition.nodup_of_disjoint`), in
  particular the ones that refinement yields (`PointTable.covers_partition_iff`).
* `Partition.exchange` — another class in the place of one of two equal ones.
* `Partition.covers_symm_iff`, `Partition.covers_perm_iff` — the partitions from which the
  comparison is symmetric, and those from which it is exact.
* `Partition.comparison_of_partitions` — **all of this together**, and
  `Partition.repeated_class_not_symm` — a repeated class that the comparison overlooks.
-/

set_option autoImplicit false

namespace Automata

namespace Partition

variable {α : Type} [Ord α]

/-- Every list of classes is the list of some lists of members. -/
theorem ofLists_toList [Std.TransOrd α] [Std.LawfulEqOrd α] (p : Partition α) :
    ofLists (p.classes.map FinSet.toList) = p := by
  obtain ⟨classes⟩ := p
  simp [ofLists, Function.comp_def]

/-- Disjoint classes are different if they are not empty. -/
theorem nodup_of_disjoint {p : Partition α} (hne : ∀ c ∈ p.classes, ∃ a, a ∈ c)
    (hdisjoint : p.classes.Pairwise fun b c => ∀ a, a ∈ b → a ∉ c) : p.classes.Nodup := by
  refine hdisjoint.imp_of_mem fun {b c} hb _ h heq => ?_
  obtain ⟨a, ha⟩ := hne b hb
  exact h a ha (heq ▸ ha)

variable [DecidableEq α] {p q r : Partition α} {c s : FinSet α}

/-! ## What holds of all partitions -/

theorem covers_iff :
    p.covers q = true ↔ p.classes.length = q.classes.length ∧ p.classes ⊆ q.classes := by
  rw [covers, Bool.and_eq_true, decide_eq_true_eq, List.all_eq_true]
  simp only [decide_eq_true_eq, size, List.subset_def]

theorem covers_refl (p : Partition α) : p.covers p = true :=
  covers_iff.2 ⟨rfl, List.Subset.refl _⟩

theorem covers_trans (hpq : p.covers q = true) (hqr : q.covers r = true) : p.covers r = true := by
  rw [covers_iff] at *
  exact ⟨hpq.1.trans hqr.1, List.Subset.trans hpq.2 hqr.2⟩

/-- The order of the classes does not matter. -/
theorem covers_of_perm (h : p.classes.Perm q.classes) : p.covers q = true :=
  covers_iff.2 ⟨h.length_eq, h.subset⟩

/-! ## Partitions without repeated classes -/

/-- **From a partition without repeated classes the comparison is exact.**  The other partition has
no more classes than those that it has to have. -/
theorem covers_iff_perm (hp : p.classes.Nodup) :
    p.covers q = true ↔ p.classes.Perm q.classes := by
  refine ⟨fun h => ?_, covers_of_perm⟩
  obtain ⟨hlength, hsubset⟩ := covers_iff.1 h
  exact (hp.subperm hsubset).perm_of_length_le hlength.ge

/-- With every set among its classes a partition is compared by its number of classes. -/
theorem covers_of_forall_mem (hq : ∀ s, s ∈ q.classes) (h : p.classes.length = q.classes.length) :
    p.covers q = true :=
  covers_iff.2 ⟨h, fun s _ => hq s⟩

/-! ## Partitions with a repeated class -/

/-- The partition with `s` in the place of one class `c`. -/
def exchange (p : Partition α) (c s : FinSet α) : Partition α := ⟨s :: p.classes.erase c⟩

theorem mem_of_repeated (hc : 2 ≤ p.classes.count c) : c ∈ p.classes :=
  List.count_pos_iff.1 (Nat.lt_of_lt_of_le Nat.zero_lt_two hc)

/-- **The exchange of one of two equal classes is not noticed.** -/
theorem covers_exchange (hc : 2 ≤ p.classes.count c) : p.covers (p.exchange c s) = true := by
  refine covers_iff.2 ⟨?_, fun d hd => List.mem_cons_of_mem s ?_⟩
  · rw [exchange, List.length_cons, List.length_erase_add_one (mem_of_repeated hc)]
  · by_cases hdc : d = c
    · -- the other one of the two is still there
      have hcount : 0 < (p.classes.erase c).count c := by
        rw [List.count_erase_self]
        omega
      rw [hdc]
      exact List.count_pos_iff.1 hcount
    · exact (List.mem_erase_of_ne hdc).2 hd

/-- A class that is new is noticed from the other side. -/
theorem not_exchange_covers (hs : s ∉ p.classes) : ¬ (p.exchange c s).covers p = true :=
  fun h => hs ((covers_iff.1 h).2 List.mem_cons_self)

/-- The exchange for another class changes how often a class is listed. -/
theorem not_perm_exchange (hc : c ∈ p.classes) (hs : s ≠ c) :
    ¬ p.classes.Perm (p.exchange c s).classes := by
  intro h
  have hcount := h.count_eq c
  have hpos := List.count_pos_iff.2 hc
  rw [exchange, List.count_cons_of_ne hs, List.count_erase_self] at hcount
  omega

theorem exists_repeated (hp : ¬ p.classes.Nodup) : ∃ c, 2 ≤ p.classes.count c := by
  rw [List.nodup_iff_count_le_one] at hp
  push Not at hp
  exact hp

/-! ## Where the comparison is what it should be -/

/-- The comparison is **symmetric** from the partitions without repeated classes, and from those
that have every set among their classes. -/
theorem covers_symm_iff : (∀ q : Partition α, p.covers q = true → q.covers p = true) ↔
    p.classes.Nodup ∨ ∀ s, s ∈ p.classes := by
  refine ⟨fun h => ?_, ?_⟩
  · by_contra hnot
    obtain ⟨hp, hall⟩ := not_or.1 hnot
    obtain ⟨c, hc⟩ := exists_repeated hp
    obtain ⟨s, hs⟩ := not_forall.1 hall
    exact not_exchange_covers hs (h _ (covers_exchange hc))
  · rintro (hp | hall) q hq
    · exact covers_of_perm ((covers_iff_perm hp).1 hq).symm
    · exact covers_of_forall_mem hall (covers_iff.1 hq).1.symm

omit [DecidableEq α] in
/-- Without anything to divide there is only the empty class. -/
theorem classes_eq_of_isEmpty [IsEmpty α] (h : p.classes.length = q.classes.length) :
    p.classes = q.classes := by
  refine List.ext_getElem h fun i _ _ => FinSet.eq_of_toList_eq ?_
  exact Subsingleton.elim _ _

/-- Where there is something to divide there is another class for each class. -/
theorem exists_other_class (a : α) (c : FinSet α) : ∃ s, s ≠ c := by
  by_cases hc : c = ∅
  · refine ⟨FinSet.singleton a, fun h => ?_⟩
    exact FinSet.not_mem_empty (hc ▸ h ▸ FinSet.mem_singleton.2 rfl)
  · exact ⟨∅, Ne.symm hc⟩

/-- The comparison is **exact** from the partitions without repeated classes, and from no others
if there is anything to divide. -/
theorem covers_perm_iff : (∀ q : Partition α, p.covers q = true ↔ p.classes.Perm q.classes) ↔
    p.classes.Nodup ∨ IsEmpty α := by
  refine ⟨fun h => ?_, ?_⟩
  · by_contra hnot
    obtain ⟨hp, hα⟩ := not_or.1 hnot
    obtain ⟨a⟩ := not_isEmpty_iff.1 hα
    obtain ⟨c, hc⟩ := exists_repeated hp
    obtain ⟨s, hs⟩ := exists_other_class a c
    exact not_perm_exchange (mem_of_repeated hc) hs ((h _).1 (covers_exchange hc))
  · rintro (hp | hα) q
    · exact covers_iff_perm hp
    · refine ⟨fun hq => ?_, covers_of_perm⟩
      rw [classes_eq_of_isEmpty (covers_iff.1 hq).1]

/-- **What the comparison of partitions is.**  It is reflexive and transitive on all lists of
classes.  It is symmetric from exactly those that list no class twice or list every set, and it
says that the same classes are listed equally often, in any order, from exactly those that list no
class twice, unless there is nothing to divide. -/
theorem comparison_of_partitions (α : Type) [Ord α] [DecidableEq α] :
    (∀ p : Partition α, p.covers p = true) ∧
    (∀ p q r : Partition α, p.covers q = true → q.covers r = true → p.covers r = true) ∧
    (∀ p : Partition α, (∀ q : Partition α, p.covers q = true → q.covers p = true) ↔
      p.classes.Nodup ∨ ∀ s, s ∈ p.classes) ∧
    ∀ p : Partition α, (∀ q : Partition α, p.covers q = true ↔ p.classes.Perm q.classes) ↔
      p.classes.Nodup ∨ IsEmpty α :=
  ⟨covers_refl, fun _ _ _ => covers_trans, fun _ => covers_symm_iff, fun _ => covers_perm_iff⟩

theorem rearranged_comparison_of_partitions :
    let p : Partition Nat := ofLists [[0, 1], [], [2]]
    let q : Partition Nat := ofLists [[2], [1, 0, 1], []]
    let r : Partition Nat := ofLists [[], [2], [0, 1]]
    (p.covers q = true ∧ q.covers r = true ∧ p.classes.Nodup) ∧
      p.covers r = true ∧ q.covers p = true ∧ p.classes.Perm r.classes := by
  intro p q r
  have hpq : p.covers q = true := by decide
  have hqr : q.covers r = true := by decide
  have hp : p.classes.Nodup := by decide
  obtain ⟨_, htrans, hsymm, hperm⟩ := comparison_of_partitions Nat
  have hpr := htrans p q r hpq hqr
  exact ⟨⟨hpq, hqr, hp⟩, hpr, (hsymm p).2 (.inl hp) q hpq, ((hperm p).2 (.inl hp) r).1 hpr⟩

/-- Disjoint classes do not help if the empty one is listed twice. -/
theorem repeated_class_not_symm :
    ((ofLists [[0], [0]] : Partition Nat).covers (ofLists [[0], [1]]) = true ∧
      (ofLists [[0], [1]] : Partition Nat).covers (ofLists [[0], [0]]) = false) ∧
    (ofLists [[], []] : Partition Nat).covers (ofLists [[], [1]]) = true ∧
      (ofLists [[], [1]] : Partition Nat).covers (ofLists [[], []]) = false := by
  decide

end Partition

/-! ## The partitions that refinement yields -/

namespace PointTable

variable {t : PointTable} {q : Partition Nat}

theorem partition_nodup (t : PointTable) : t.partition.classes.Nodup := by
  refine Partition.nodup_of_disjoint (fun block hblock => ?_) t.partition_disjoint
  obtain ⟨k, hk, rfl⟩ := mem_partition_iff.1 hblock
  obtain ⟨p, hp⟩ := List.mem_iff_getElem?.1 hk
  exact ⟨p, mem_block.2 hp⟩

/-- **What refinement yields is compared exactly**, with any list of classes. -/
theorem covers_partition_iff :
    t.partition.covers q = true ↔ t.partition.classes.Perm q.classes :=
  Partition.covers_iff_perm t.partition_nodup

end PointTable

end Automata
