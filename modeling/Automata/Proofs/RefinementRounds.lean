import Automata.Proofs.Refinement

/-!
# The rounds of a refinement

Refinement ends with the first round that yields as many classes as there were before it.  Until
then every round yields at least one class more, and there cannot be more classes than points, so
the end comes soon.  What is left then is a partition of the points, and the coarsest one that can
be told from outside: points are together exactly if no sequence of symbols leads from one of them
to an accepting point and from the other to one that is not.

## What is here

* `PointTable.round` — the classes after each round, and `PointTable.LastRound` — the round after
  which refinement ends; `PointTable.exists_lastRound` — there is one, with the classes that
  refinement yields, and `PointTable.LastRound.le_length` — it comes before there are more rounds
  than points.
* `PointTable.follow?` — the point to which a sequence of symbols leads, and
  `PointTable.sameFuture_iff_follow` — points with the same future in terms of it.
* `PointTable.partition_coarsest` — **refinement ends, with the coarsest partition that the
  successors respect.**
-/

set_option autoImplicit false

namespace Automata

namespace PointTable

variable {t : PointTable} {width : Nat}

/-! ## Rounds -/

/-- The classes after `k` rounds. -/
def round (t : PointTable) : Nat → List Nat
  | 0 => t.initial
  | k + 1 => t.refine (t.round k)

/-- After `k` rounds one more round yields as many classes as there are, which no round did
before. -/
structure LastRound (t : PointTable) (k : Nat) : Prop where
  /-- The round yields no further class. -/
  count_eq : countDifferent (t.round (k + 1)) = countDifferent (t.round k)
  /-- The rounds before it did. -/
  count_ne : ∀ j < k, countDifferent (t.round (j + 1)) ≠ countDifferent (t.round j)

theorem length_round (ht : t.Regular width) (k : Nat) : (t.round k).length = t.rows.length := by
  induction k with
  | zero => exact (Coarse.initial ht).length_eq
  | succ k ih => exact length_refine ih

/-- A round never yields fewer classes. -/
theorem count_round_le_succ (ht : t.Regular width) (k : Nat) :
    countDifferent (t.round k) ≤ countDifferent (t.round (k + 1)) :=
  (refines_refine ht (length_round ht k)).count_le

/-- Refining goes on from the classes after `j` rounds to the last round. -/
theorem exists_lastRound_from (ht : t.Regular width) (j : Nat)
    (hne : ∀ i < j, countDifferent (t.round (i + 1)) ≠ countDifferent (t.round i)) :
    ∃ k, t.LastRound k ∧ t.stable (t.round j) = t.round (k + 1) := by
  generalize hcs : t.round j = cs
  induction cs using stable.induct t generalizing j with
  | case1 cs refined hlt ih =>
    have hsucc : t.round (j + 1) = refined := by rw [round, hcs]
    rw [stable, if_pos hlt]
    refine ih (j + 1) (fun i hi => ?_) hsucc
    rcases Nat.lt_succ_iff_lt_or_eq.1 hi with hi | rfl
    · exact hne i hi
    · rw [hsucc, hcs]
      exact Nat.ne_of_gt hlt
  | case2 cs refined hle =>
    have hsucc : t.round (j + 1) = refined := by rw [round, hcs]
    have hge := count_round_le_succ ht j
    rw [hsucc, hcs] at hge
    rw [stable, if_neg hle]
    refine ⟨j, ⟨?_, hne⟩, hsucc.symm⟩
    rw [hsucc, hcs]
    exact Nat.le_antisymm (Nat.le_of_not_lt hle) hge

/-- **There is a last round, and refinement yields its classes.** -/
theorem exists_lastRound (ht : t.Regular width) :
    ∃ k, t.LastRound k ∧ t.classes = t.round (k + 1) :=
  exists_lastRound_from ht 0 fun i hi => absurd hi (Nat.not_lt_zero i)

/-- Every round before the last one adds a class. -/
theorem LastRound.le_count (ht : t.Regular width) {k j : Nat} (h : t.LastRound k) (hj : j ≤ k) :
    j ≤ countDifferent (t.round j) := by
  induction j with
  | zero => exact Nat.zero_le _
  | succ j ih =>
    have hbefore := ih (by omega)
    have hle := count_round_le_succ ht j
    have hne := h.count_ne j (by omega)
    omega

/-- **There are not more rounds before the last one than there are points.** -/
theorem LastRound.le_length (ht : t.Regular width) {k : Nat} (h : t.LastRound k) :
    k ≤ t.rows.length := by
  have hk := h.le_count ht (Nat.le_refl k)
  have hcount : countDifferent (t.round (k + 1)) ≤ t.rows.length := countDifferent_refine_le t _
  have heq := h.count_eq
  omega

/-! ## Where symbols lead -/

/-- The point to which a sequence of symbols leads. -/
def follow? (t : PointTable) (p : Nat) : List Nat → Option Nat
  | [] => some p
  | i :: w => (t.succ? p i).bind fun q => t.follow? q w

theorem future_eq_follow (p : Nat) (w : List Nat) :
    t.future p w = (t.follow? p w).any fun q => t.accepting[q]? == some true := by
  induction w generalizing p with
  | nil => rfl
  | cons i w ih =>
    rw [future, follow?]
    cases t.succ? p i with
    | none => rfl
    | some q => exact ih q

/-- In a regular table every sequence of symbols leads from points to points. -/
theorem Regular.exists_follow (ht : t.Regular width) {p : Nat} (hp : p < t.rows.length)
    {w : List Nat} (hw : ∀ i ∈ w, i < width) : ∃ q, t.follow? p w = some q ∧ q < t.rows.length := by
  induction w generalizing p with
  | nil => exact ⟨p, rfl, hp⟩
  | cons i w ih =>
    obtain ⟨hi, hw⟩ := List.forall_mem_cons.1 hw
    obtain ⟨r, hr⟩ := (ht.exists_succ_iff hp).2 hi
    rw [follow?, hr]
    exact ih (ht.succ_lt hr) hw

/-- What is no symbol leads nowhere. -/
theorem Regular.follow_eq_none (ht : t.Regular width) {p : Nat} (hp : p < t.rows.length)
    {w : List Nat} (hw : ∃ i ∈ w, ¬i < width) : t.follow? p w = none := by
  induction w generalizing p with
  | nil =>
    obtain ⟨i, hi, _⟩ := hw
    exact absurd hi List.not_mem_nil
  | cons i w ih =>
    rw [follow?]
    cases hr : t.succ? p i with
    | none => rfl
    | some r =>
      refine ih (ht.succ_lt hr) ?_
      have hi := (ht.exists_succ_iff hp).1 ⟨r, hr⟩
      exact ((List.exists_mem_cons_iff ..).1 hw).resolve_left (not_not_intro hi)

/-- Points have the same future exactly if all sequences of symbols lead from them to points that
are both accepting or both not. -/
theorem sameFuture_iff_follow (ht : t.Regular width) {p q : Nat} (hp : p < t.rows.length)
    (hq : q < t.rows.length) : t.SameFuture p q ↔ ∀ w : List Nat, (∀ i ∈ w, i < width) →
      ∃ p' q', t.follow? p w = some p' ∧ t.follow? q w = some q' ∧
        t.accepting[p']? = t.accepting[q']? := by
  have haccepting : ∀ {r}, r < t.rows.length → ∃ b, t.accepting[r]? = some b := fun hr =>
    ⟨_, List.getElem?_eq_getElem (ht.length_accepting ▸ hr)⟩
  refine ⟨fun h w hw => ?_, fun h w => ?_⟩
  · obtain ⟨p', hp', hlt⟩ := ht.exists_follow hp hw
    obtain ⟨q', hq', hlt'⟩ := ht.exists_follow hq hw
    obtain ⟨b, hb⟩ := haccepting hlt
    obtain ⟨b', hb'⟩ := haccepting hlt'
    have hfuture := h w
    rw [future_eq_follow, future_eq_follow, hp', hq', Option.any_some, Option.any_some, hb, hb']
      at hfuture
    refine ⟨p', q', hp', hq', ?_⟩
    rw [hb, hb']
    cases b <;> cases b' <;> simp_all
  · rw [future_eq_follow, future_eq_follow]
    by_cases hw : ∀ i ∈ w, i < width
    · obtain ⟨p', q', hp', hq', heq⟩ := h w hw
      rw [hp', hq', Option.any_some, Option.any_some, heq]
    · have hw : ∃ i ∈ w, ¬i < width := by simpa using hw
      rw [ht.follow_eq_none hp hw, ht.follow_eq_none hq hw]

/-! ## The partition -/

/-- The blocks are the points of one class each. -/
theorem mem_partition_iff {block : FinSet Nat} : block ∈ t.partition.classes ↔
    ∃ k ∈ t.classes, block =
      FinSet.ofList ((List.range t.classes.length).filter fun p => t.classes[p]? = some k) := by
  simp only [partition, List.mem_iff_getElem?, getElem?_blocks, ← mem_classes]

/-- Two points are in one block exactly if they are in one class. -/
theorem exists_block_iff {p q : Nat} (hp : p < t.classes.length) :
    (∃ block ∈ t.partition.classes, p ∈ block ∧ q ∈ block) ↔ t.classes[p]? = t.classes[q]? := by
  simp only [mem_partition_iff]
  refine ⟨?_, fun h => ?_⟩
  · rintro ⟨_, ⟨k, _, rfl⟩, hpk, hqk⟩
    rw [mem_block] at hpk hqk
    rw [hpk, hqk]
  · have hpk := List.getElem?_eq_getElem hp
    exact ⟨_, ⟨_, List.getElem_mem hp, rfl⟩, mem_block.2 hpk, mem_block.2 (h ▸ hpk)⟩

/-- No point is in two blocks. -/
theorem partition_disjoint (t : PointTable) :
    t.partition.classes.Pairwise fun b c => ∀ p, p ∈ b → p ∉ c := by
  rw [partition, blocks, List.pairwise_map]
  refine List.nodup_range.imp fun {k j} hne p hk hj => hne ?_
  rw [mem_block] at hk hj
  exact Option.some_inj.1 (hk.symm.trans hj)

/-- **Refinement yields the coarsest partition that the successors respect.**  It ends with the
first round that yields no further class, before which there are not more rounds than points.  No
class is empty, no two classes share a point, and every point is in a class.  Two points share a
class exactly if every sequence of symbols leads from them to points that are both accepting or both
not. -/
theorem partition_coarsest (ht : t.Regular width) :
    (∃ k, t.LastRound k ∧ k + 1 ≤ t.rows.length + 1 ∧ t.partition = blocks (t.round (k + 1))) ∧
    (∀ block ∈ t.partition.classes, ∃ p, p ∈ block) ∧
    t.partition.classes.Pairwise (fun b c => ∀ p, p ∈ b → p ∉ c) ∧
    (∀ p, (∃ block ∈ t.partition.classes, p ∈ block) ↔ p < t.rows.length) ∧
    ∀ p q, p < t.rows.length → q < t.rows.length →
      ((∃ block ∈ t.partition.classes, p ∈ block ∧ q ∈ block) ↔
        ∀ w : List Nat, (∀ i ∈ w, i < width) →
          ∃ p' q', t.follow? p w = some p' ∧ t.follow? q w = some q' ∧
            t.accepting[p']? = t.accepting[q']?) := by
  have hlen := (classes_settled ht).length_eq
  refine ⟨?_, fun block hblock => ?_, t.partition_disjoint, fun p => ?_, fun p q hp hq => ?_⟩
  · obtain ⟨k, hk, hclasses⟩ := exists_lastRound ht
    exact ⟨k, hk, Nat.succ_le_succ (hk.le_length ht), by rw [partition, hclasses]⟩
  · obtain ⟨k, hk, rfl⟩ := mem_partition_iff.1 hblock
    obtain ⟨p, hp⟩ := List.mem_iff_getElem?.1 hk
    exact ⟨p, mem_block.2 hp⟩
  · refine ⟨?_, fun hp => ?_⟩
    · rintro ⟨block, hblock, hp⟩
      obtain ⟨k, _, rfl⟩ := mem_partition_iff.1 hblock
      exact hlen ▸ (List.getElem?_eq_some_iff.1 (mem_block.1 hp)).1
    · obtain ⟨block, hblock, hp, _⟩ := (exists_block_iff (hlen ▸ hp)).2 (Eq.refl t.classes[p]?)
      exact ⟨block, hblock, hp⟩
  · rw [exists_block_iff (hlen ▸ hp), classes_eq_iff ht hp hq, sameFuture_iff_follow ht hp hq]

/-- The points `1` and `3` lead to the same point, which is the only accepting one. -/
def confluent : PointTable where
  rows := [[1], [2], [2], [2]]
  accepting := [false, false, true, false]

theorem confluent_partition_coarsest : confluent.Regular 1 ∧
    (∃ k, confluent.LastRound k ∧ k + 1 ≤ 5 ∧
      confluent.partition = blocks (confluent.round (k + 1))) ∧
    (1 < 4 ∧ 3 < 4 ∧ ((∃ block ∈ confluent.partition.classes, 1 ∈ block ∧ 3 ∈ block) ↔
      ∀ w : List Nat, (∀ i ∈ w, i < 1) →
        ∃ p' q', confluent.follow? 1 w = some p' ∧ confluent.follow? 3 w = some q' ∧
          confluent.accepting[p']? = confluent.accepting[q']?)) := by
  have ht : confluent.Regular 1 := ⟨rfl, by decide, by decide⟩
  obtain ⟨hround, _, _, _, htogether⟩ := partition_coarsest ht
  exact ⟨ht, hround, by decide, by decide, htogether 1 3 (by decide) (by decide)⟩

end PointTable

end Automata
