import Automata.DFA.Minimization
import Automata.Proofs.Reachability
import Automata.Proofs.Refinement
import Automata.Proofs.Relations

/-!
# Minimization keeps the language

Minimization works on numbers: the positions of a run, the sink among them, are the points of a
table, and the classes of the points get names.  Here the numbers are traced back to positions.
Two positions have one name exactly if no rest of a tape tells them apart, and the sink's class is
the only one without a name, so that the minimal automaton gets stuck as soon as nothing can be
accepted any more.

## What is here

* `DFA.Reached` and `DFA.number` — the positions that a run can have, and their points.
* `DFA.sameFuture_iff` — points have the same future exactly if their positions have.
* `DFA.className` — the name of the class of a position, with `DFA.className_eq_none_iff` and
  `DFA.className_eq_iff` — **names tell exactly the living positions apart that some tape tells
  apart.**
* `DFA.move_className` — **the minimal automaton moves between names as the automaton moves between
  positions**, whichever member of a class is asked.
* `DFA.minimize_after`, `DFA.future_minimize` — where the minimal automaton stands after a tape and
  what it accepts.
* `DFA.minimize_keeps_language` — the language is kept, and dead moves are left out.
-/

set_option autoImplicit false

namespace Automata

namespace DFA

variable {D : DFA} {x y : Option State}

/-! ## Positions as points -/

/-- The positions that a run can have. -/
def Reached (D : DFA) (x : Option State) : Prop := ∀ q, x = some q → q ∈ D.reachable

theorem reached_none (D : DFA) : D.Reached none := fun _ h => nomatch h

theorem reached_start (D : DFA) : D.Reached (some D.start) := by
  rintro q ⟨⟩
  exact NFA.start_mem_reachable

theorem Reached.move (hx : D.Reached x) (a : Char) : D.Reached (D.move x a) := by
  intro p hp
  obtain ⟨q, rfl, hq⟩ := Option.bind_eq_some_iff.1 hp
  exact NFA.reachable_closed (hx q rfl) (next?_eq_some_iff.1 hq)

theorem Reached.after (hx : D.Reached x) (w : List Char) : D.Reached (D.after x w) := by
  induction w generalizing x with
  | nil => exact hx
  | cons a w ih => exact ih (hx.move a)

/-- The point of a position.  The sink comes after all states. -/
def number (D : DFA) (x : Option State) : Nat :=
  (x.bind fun q => D.reachable.toList.idxOf? q).getD D.reachable.toList.length

theorem number_none : D.number none = D.reachable.toList.length := rfl

theorem getElem?_number {q : State} (hq : q ∈ D.reachable) :
    D.reachable.toList[D.number (some q)]? = some q := by
  obtain ⟨i, hi⟩ := exists_idxOf?_eq_some (FinSet.mem_toList.2 hq)
  rw [number, Option.bind_some, hi, Option.getD_some]
  exact (idxOf?_eq_some_iff_getElem? D.reachable.nodup).1 hi

theorem number_eq_of_getElem? {q : State} {i : Nat} (h : D.reachable.toList[i]? = some q) :
    D.number (some q) = i := by
  rw [number, Option.bind_some, (idxOf?_eq_some_iff_getElem? D.reachable.nodup).2 h,
    Option.getD_some]

theorem length_rows : D.pointTable.rows.length = D.reachable.toList.length + 1 := by
  simp only [pointTable, List.length_append, List.length_map, List.length_cons, List.length_nil,
    Nat.zero_add]

/-- Every position has a point. -/
theorem number_lt (x : Option State) : D.number x < D.pointTable.rows.length := by
  rw [length_rows, Nat.lt_succ_iff, number]
  cases h : x.bind fun q => D.reachable.toList.idxOf? q with
  | none => exact Nat.le_refl _
  | some i =>
    obtain ⟨q, _, hq⟩ := Option.bind_eq_some_iff.1 h
    have hi := (idxOf?_eq_some_iff_getElem? D.reachable.nodup).1 hq
    exact Nat.le_of_lt (List.getElem?_eq_some_iff.1 hi).1

/-- Every point is the point of a position. -/
theorem exists_number_eq {i : Nat} (h : i < D.pointTable.rows.length) :
    ∃ x, D.Reached x ∧ D.number x = i := by
  rw [length_rows] at h
  rcases Nat.lt_succ_iff_lt_or_eq.1 h with hi | rfl
  · have hget := List.getElem?_eq_getElem hi
    refine ⟨some D.reachable.toList[i], ?_, number_eq_of_getElem? hget⟩
    rintro q ⟨⟩
    exact List.getElem_mem hi
  · exact ⟨none, D.reached_none, number_none⟩

/-! ## The table -/

/-- The row of a position holds the points of the positions that follow. -/
theorem getElem?_rows (hx : D.Reached x) :
    D.pointTable.rows[D.number x]?
      = some (D.alphabet.toList.map fun a => D.number (D.move x a)) := by
  rw [pointTable]
  cases x with
  | none =>
    rw [number_none, List.getElem?_append_right (by rw [List.length_map]), List.length_map,
      Nat.sub_self]
    rfl
  | some q =>
    have hget := getElem?_number (hx q rfl)
    have hlt := (List.getElem?_eq_some_iff.1 hget).1
    rw [List.getElem?_append_left (by rw [List.length_map]; exact hlt), List.getElem?_map, hget]
    rfl

/-- A point is accepting exactly if its position is. -/
theorem getElem?_accepting (hx : D.Reached x) :
    D.pointTable.accepting[D.number x]? = some (D.acceptsAt x) := by
  rw [pointTable]
  cases x with
  | none =>
    rw [number_none, List.getElem?_append_right (by rw [List.length_map]), List.length_map,
      Nat.sub_self]
    rfl
  | some q =>
    have hget := getElem?_number (hx q rfl)
    have hlt := (List.getElem?_eq_some_iff.1 hget).1
    rw [List.getElem?_append_left (by rw [List.length_map]; exact hlt), List.getElem?_map, hget]
    rfl

theorem regular_pointTable (D : DFA) : D.pointTable.Regular D.alphabet.toList.length := by
  have hrow : ∀ row ∈ D.pointTable.rows,
      ∃ x, D.Reached x ∧ row = D.alphabet.toList.map fun a => D.number (D.move x a) := by
    intro row hrow
    obtain ⟨i, hi⟩ := List.getElem?_of_mem hrow
    obtain ⟨x, hx, rfl⟩ := exists_number_eq (List.getElem?_eq_some_iff.1 hi).1
    rw [getElem?_rows hx, Option.some_inj] at hi
    exact ⟨x, hx, hi.symm⟩
  refine ⟨?_, fun row h => ?_, fun row h p hp => ?_⟩
  · simp only [pointTable, List.length_append, List.length_map, List.length_cons, List.length_nil]
  · obtain ⟨x, _, rfl⟩ := hrow row h
    exact List.length_map _
  · obtain ⟨x, _, rfl⟩ := hrow row h
    obtain ⟨a, _, rfl⟩ := List.mem_map.1 hp
    exact number_lt _

theorem succ?_number (hx : D.Reached x) (i : Nat) :
    D.pointTable.succ? (D.number x) i
      = D.alphabet.toList[i]?.map fun a => D.number (D.move x a) := by
  rw [PointTable.succ?, getElem?_rows hx, Option.bind_some, List.getElem?_map]

/-- **Points have the same future exactly if their positions have.** -/
theorem sameFuture_iff (hD : D.WellFormed) (hx : D.Reached x) (hy : D.Reached y) :
    D.pointTable.SameFuture (D.number x) (D.number y) ↔ ∀ w, D.future x w = D.future y w := by
  refine ⟨fun h w => ?_, fun h w => ?_⟩
  · induction w generalizing x y with
    | nil =>
      have hacc := h.accepting_eq (regular_pointTable D) (number_lt x) (number_lt y)
      rw [getElem?_accepting hx, getElem?_accepting hy] at hacc
      exact Option.some_inj.1 hacc
    | cons a w ih =>
      rw [future_cons, future_cons]
      by_cases ha : a ∈ D.alphabet
      · obtain ⟨i, hi⟩ := List.getElem?_of_mem (FinSet.mem_toList.2 ha)
        refine ih (hx.move a) (hy.move a) (PointTable.SameFuture.succ h (i := i) ?_ ?_)
        · rw [succ?_number hx, hi, Option.map_some]
        · rw [succ?_number hy, hi, Option.map_some]
      · -- the table has no column for the symbol, but it leads nowhere from either position
        rw [move_of_not_mem hD ha, move_of_not_mem hD ha]
  · induction w generalizing x y with
    | nil =>
      rw [PointTable.future, PointTable.future, getElem?_accepting hx, getElem?_accepting hy]
      exact congrArg (fun b => some b == some true) (h [])
    | cons i w ih =>
      rw [PointTable.future, PointTable.future, succ?_number hx, succ?_number hy]
      cases D.alphabet.toList[i]? with
      | none => rfl
      | some a => exact ih (hx.move a) (hy.move a) fun v => h (a :: v)

/-! ## Classes -/

/-- The class of a position. -/
def classOf (D : DFA) (x : Option State) : Option Nat := D.pointTable.classes[D.number x]?

theorem classOf_eq_iff (hD : D.WellFormed) (hx : D.Reached x) (hy : D.Reached y) :
    D.classOf x = D.classOf y ↔ ∀ w, D.future x w = D.future y w := by
  rw [classOf, classOf, ← sameFuture_iff hD hx hy]
  exact PointTable.classes_eq_iff (regular_pointTable D) (number_lt x) (number_lt y)

theorem exists_classOf (D : DFA) (x : Option State) : ∃ c, D.classOf x = some c := by
  have hlen := (PointTable.classes_settled (regular_pointTable D)).length_eq
  have hlt : D.number x < D.pointTable.classes.length := hlen ▸ number_lt x
  exact ⟨_, List.getElem?_eq_getElem hlt⟩

/-- A class that survives is one that is not the sink's. -/
theorem mem_live {c : Nat} {block : FinSet Nat} :
    (c, block) ∈ D.merging.live ↔ D.merging.blocks[c]? = some block ∧ D.classOf none ≠ some c := by
  simp only [Merging.live, List.mem_map, List.mem_filter, Prod.exists, Prod.mk.injEq,
    decide_eq_true_eq, List.mem_zipIdx_iff_getElem?]
  refine ⟨?_, ?_⟩
  · rintro ⟨b, k, ⟨hb, hk⟩, rfl, rfl⟩
    exact ⟨hb, Ne.symm hk⟩
  · rintro ⟨hb, hk⟩
    exact ⟨block, c, ⟨hb, Ne.symm hk⟩, rfl, rfl⟩

theorem nodup_live (D : DFA) : (D.merging.live.map Prod.fst).Nodup := by
  have hnodup : (D.merging.blocks.zipIdx.map Prod.snd).Nodup := by
    rw [List.zipIdx_map_snd]
    exact List.nodup_range'
  rw [Merging.live, List.map_map]
  exact (List.filter_sublist.map _).nodup hnodup

/-- The block of a surviving class has a least member, and this is the point of a position in that
class. -/
theorem exists_least {c : Nat} {block : FinSet Nat} (h : (c, block) ∈ D.merging.live) :
    ∃ y, D.Reached y ∧ block.min? = some (D.number y) ∧ D.classOf y = some c := by
  obtain ⟨hc, hblock⟩ := PointTable.getElem?_blocks.1 (mem_live.1 h).1
  have hmem : ∀ p, p ∈ block ↔ D.pointTable.classes[p]? = some c := fun p =>
    hblock ▸ PointTable.mem_block
  obtain ⟨p, hp⟩ := List.getElem?_of_mem (PointTable.mem_classes.2 hc)
  have hlen := (PointTable.classes_settled (regular_pointTable D)).length_eq
  cases hmin : block.min? with
  | none =>
    have hnil := List.head?_eq_none_iff.1 hmin
    exact absurd ((hmem p).2 hp) (FinSet.mem_def.not.2 (hnil ▸ List.not_mem_nil))
  | some i =>
    have hi := (hmem i).1 (List.mem_of_mem_head? hmin)
    obtain ⟨y, hy, rfl⟩ := exists_number_eq (hlen ▸ (List.getElem?_eq_some_iff.1 hi).1)
    exact ⟨y, hy, rfl, hi⟩

/-! ## Names of classes -/

/-- Different surviving classes have different names. -/
theorem naming_names (D : DFA) : Naming D.merging.names :=
  naming_zip_supply (nodup_live D) (by rw [List.length_map, List.length_map])

theorem map_fst_names (D : DFA) : D.merging.names.map Prod.fst = D.merging.live.map Prod.fst := by
  refine List.map_fst_zip (Nat.le_of_eq ?_)
  rw [length_supply, List.length_map, List.length_map]

/-- A class with a name survives. -/
theorem exists_mem_live {c : Nat} {n : State} (h : (c, n) ∈ D.merging.names) :
    ∃ block, (c, block) ∈ D.merging.live := by
  have hfst : c ∈ D.merging.live.map Prod.fst := by
    rw [← map_fst_names]
    exact List.mem_map.2 ⟨_, h, rfl⟩
  obtain ⟨⟨_, block⟩, hlive, rfl⟩ := List.mem_map.1 hfst
  exact ⟨block, hlive⟩

/-- The name of the class of a position. -/
def className (D : DFA) (x : Option State) : Option State :=
  D.merging.nameAt D.merging.names (D.number x)

theorem className_eq_some_iff {n : State} :
    D.className x = some n ↔ ∃ c, D.classOf x = some c ∧ (c, n) ∈ D.merging.names := by
  rw [className, Merging.nameAt, Option.bind_eq_some_iff]
  exact exists_congr fun c => and_congr_right fun _ => (naming_names D).lookup_eq_some_iff

/-- Only the sink's class has no name. -/
theorem className_eq_none_iff_classOf : D.className x = none ↔ D.classOf x = D.classOf none := by
  obtain ⟨c, hc⟩ := D.exists_classOf x
  refine ⟨fun hnone => ?_, fun hdead => ?_⟩
  · by_contra hne
    have hlt := PointTable.mem_classes.1 (List.mem_of_getElem? hc)
    have hlive := mem_live.2
      ⟨PointTable.getElem?_blocks.2 ⟨hlt, rfl⟩, fun h => hne (hc.trans h.symm)⟩
    have hfst : c ∈ D.merging.names.map Prod.fst := by
      rw [map_fst_names]
      exact List.mem_map.2 ⟨_, hlive, rfl⟩
    obtain ⟨⟨_, n⟩, hn, rfl⟩ := List.mem_map.1 hfst
    rw [className_eq_some_iff.2 ⟨_, hc, hn⟩] at hnone
    cases hnone
  · cases hname : D.className x with
    | none => rfl
    | some n =>
      obtain ⟨k, hk, hn⟩ := className_eq_some_iff.1 hname
      obtain ⟨block, hlive⟩ := exists_mem_live hn
      exact absurd (hdead.symm.trans hk) (mem_live.1 hlive).2

/-- **A position has no name exactly if nothing can be accepted from it any more.** -/
theorem className_eq_none_iff (hD : D.WellFormed) (hx : D.Reached x) :
    D.className x = none ↔ ∀ w, D.future x w = false := by
  rw [className_eq_none_iff_classOf, classOf_eq_iff hD hx D.reached_none]
  simp only [future_none]

/-- **Positions have one name exactly if no rest of a tape tells them apart.** -/
theorem className_eq_iff (hD : D.WellFormed) (hx : D.Reached x) (hy : D.Reached y) :
    D.className x = D.className y ↔ ∀ w, D.future x w = D.future y w := by
  rw [← classOf_eq_iff hD hx hy]
  refine ⟨fun h => ?_, fun h => ?_⟩
  · cases hname : D.className x with
    | none =>
      rw [className_eq_none_iff_classOf.1 hname,
        className_eq_none_iff_classOf.1 (h.symm.trans hname)]
    | some n =>
      obtain ⟨c, hc, hcn⟩ := className_eq_some_iff.1 hname
      obtain ⟨d, hd, hdn⟩ := className_eq_some_iff.1 (h.symm.trans hname)
      rw [hc, hd, (naming_names D).eq_of_name hcn hdn]
  · rw [className, className, Merging.nameAt, Merging.nameAt]
    exact congrArg (Option.bind · _) h

/-- The point of a named position may be taken to be the least of a block. -/
theorem exists_representative {n : State} (h : D.className x = some n) :
    ∃ c block y, (c, block) ∈ D.merging.live ∧ D.merging.names.lookup c = some n ∧ D.Reached y
      ∧ block.min? = some (D.number y) ∧ D.className y = some n := by
  obtain ⟨c, _, hn⟩ := className_eq_some_iff.1 h
  obtain ⟨block, hlive⟩ := exists_mem_live hn
  obtain ⟨y, hy, hmin, hc⟩ := exists_least hlive
  exact ⟨c, block, y, hlive, (naming_names D).lookup_eq_some_iff.2 hn, hy, hmin,
    className_eq_some_iff.2 ⟨c, hc, hn⟩⟩

/-- Every name is the name of a position. -/
theorem exists_className_eq {n : State} (h : n ∈ D.merging.names.map Prod.snd) :
    ∃ x, D.Reached x ∧ D.className x = some n := by
  obtain ⟨⟨c, n⟩, hn, rfl⟩ := List.mem_map.1 h
  obtain ⟨block, hlive⟩ := exists_mem_live hn
  obtain ⟨y, hy, _, hc⟩ := exists_least hlive
  exact ⟨y, hy, className_eq_some_iff.2 ⟨_, hc, hn⟩⟩

theorem className_mem {n : State} (h : D.className x = some n) :
    n ∈ D.merging.names.map Prod.snd := by
  obtain ⟨c, _, hn⟩ := className_eq_some_iff.1 h
  exact List.mem_map.2 ⟨_, hn, rfl⟩

theorem className_none (D : DFA) : D.className none = none := className_eq_none_iff_classOf.2 rfl

/-! ## Moves between names -/

/-- Positions with one name lead to positions with one name, so that it does not matter which member
of a class is asked. -/
theorem className_move_congr (hD : D.WellFormed) (hx : D.Reached x) (hy : D.Reached y)
    (h : D.className x = D.className y) (a : Char) :
    D.className (D.move x a) = D.className (D.move y a) := by
  have hsame := (className_eq_iff hD hx hy).1 h
  exact (className_eq_iff hD (hx.move a) (hy.move a)).2 fun w => hsame (a :: w)

/-- The edges that a row yields. -/
theorem mem_row_edges {y : Option State} {m n n' : State} {a : Char} :
    (⟨n, a, n'⟩ : Edge) ∈ (D.alphabet.toList.zip (D.alphabet.toList.map fun a =>
        D.number (D.move y a))).filterMap (fun (a, p) =>
      (D.merging.nameAt D.merging.names p).map fun name' => (⟨m, a, name'⟩ : Edge)) ↔
      m = n ∧ a ∈ D.alphabet ∧ D.className (D.move y a) = some n' := by
  rw [← List.map_prod_left_eq_zip, List.mem_filterMap]
  refine ⟨?_, ?_⟩
  · rintro ⟨_, hpair, he⟩
    obtain ⟨b, hb, rfl⟩ := List.mem_map.1 hpair
    obtain ⟨name', hname', heq⟩ := Option.map_eq_some_iff.1 he
    cases heq
    exact ⟨rfl, hb, hname'⟩
  · rintro ⟨rfl, ha, hn'⟩
    exact ⟨_, List.mem_map.2 ⟨a, ha, rfl⟩, Option.map_eq_some_iff.2 ⟨n', hn', rfl⟩⟩

theorem mem_merging_edges (hD : D.WellFormed) {n n' : State} {a : Char} :
    (⟨n, a, n'⟩ : Edge) ∈ D.merging.edges D.alphabet.toList D.merging.names ↔
      ∃ x, D.Reached x ∧ D.className x = some n ∧ a ∈ D.alphabet
        ∧ D.className (D.move x a) = some n' := by
  have hrow : ∀ {y}, D.Reached y → D.merging.table.rows[D.number y]?
      = some (D.alphabet.toList.map fun a => D.number (D.move y a)) := getElem?_rows
  rw [Merging.edges, List.mem_flatMap]
  refine ⟨?_, ?_⟩
  · rintro ⟨⟨c, block⟩, hlive, he⟩
    obtain ⟨y, hy, hmin, hc⟩ := exists_least hlive
    simp only [hmin, Option.bind_some, hrow hy] at he
    cases hlookup : D.merging.names.lookup c with
    | none =>
      rw [hlookup] at he
      exact absurd he List.not_mem_nil
    | some name =>
      rw [hlookup] at he
      obtain ⟨rfl, ha, hn'⟩ := mem_row_edges.1 he
      have hname := (naming_names D).lookup_eq_some_iff.1 hlookup
      exact ⟨y, hy, className_eq_some_iff.2 ⟨c, hc, hname⟩, ha, hn'⟩
  · rintro ⟨x, hx, hn, ha, hn'⟩
    obtain ⟨c, block, y, hlive, hlookup, hy, hmin, hny⟩ := exists_representative hn
    -- the block was asked at `y` instead of `x`, which makes no difference
    have hmove := className_move_congr hD hx hy (hn.trans hny.symm) a
    refine ⟨(c, block), hlive, ?_⟩
    simp only [hmin, Option.bind_some, hrow hy, hlookup]
    exact mem_row_edges.2 ⟨rfl, ha, hmove.symm.trans hn'⟩

/-- What is merged, provided that the class of the start has the name `start`. -/
def merged (D : DFA) (start : State) : DFA :=
  D.merging.toDFA D.alphabet D.merging.names start

/-- The moves do not compete, because positions with one name move alike. -/
theorem mem_merged_edges (hD : D.WellFormed) {start n n' : State} {a : Char} :
    (⟨n, a, n'⟩ : Edge) ∈ (D.merged start).edges ↔
      ∃ x, D.Reached x ∧ D.className x = some n ∧ a ∈ D.alphabet
        ∧ D.className (D.move x a) = some n' := by
  rw [← mem_merging_edges hD]
  refine FunctionalRelation.mem_ofList_iff ?_
  rintro ⟨n, a, n'⟩ he ⟨m, b, m'⟩ he' rfl rfl
  obtain ⟨x, hx, hn, _, hn'⟩ := (mem_merging_edges hD).1 he
  obtain ⟨y, hy, hm, _, hm'⟩ := (mem_merging_edges hD).1 he'
  have hmove := className_move_congr hD hx hy (hn.trans hm.symm) a
  rw [hn', hm'] at hmove
  rw [Option.some_inj.1 hmove]

/-- **The minimal automaton moves between names as the automaton moves between positions.** -/
theorem move_className (hD : D.WellFormed) {start : State} (hx : D.Reached x) (a : Char) :
    (D.merged start).move (D.className x) a = D.className (D.move x a) := by
  cases hn : D.className x with
  | none =>
    have hdead := (className_eq_none_iff hD hx).1 hn
    rw [move_none, eq_comm, className_eq_none_iff hD (hx.move a)]
    exact fun w => hdead (a :: w)
  | some n =>
    rw [move_some]
    refine Option.ext fun n' => ?_
    rw [next?_eq_some_iff, mem_merged_edges hD]
    refine ⟨?_, fun hn' => ?_⟩
    · rintro ⟨y, hy, hny, _, hn'⟩
      exact (className_move_congr hD hx hy (hn.trans hny.symm) a).trans hn'
    · refine ⟨x, hx, hn, ?_, hn'⟩
      by_contra ha
      rw [move_of_not_mem hD ha, className_none] at hn'
      cases hn'

theorem mem_merged_finals (hD : D.WellFormed) {start n : State} :
    n ∈ (D.merged start).finals ↔
      ∃ x, D.Reached x ∧ D.className x = some n ∧ D.acceptsAt x = true := by
  have hacc : ∀ {y}, D.Reached y →
      D.merging.table.accepting[D.number y]? = some (D.acceptsAt y) := getElem?_accepting
  rw [merged, Merging.toDFA, FinSet.mem_ofList, Merging.finals, List.mem_filterMap]
  refine ⟨?_, ?_⟩
  · rintro ⟨⟨c, block⟩, hlive, he⟩
    obtain ⟨y, hy, hmin, hc⟩ := exists_least hlive
    simp only [hmin, Option.bind_some, hacc hy, Option.some_inj] at he
    split at he
    · rename_i hy'
      have hname := (naming_names D).lookup_eq_some_iff.1 he
      exact ⟨y, hy, className_eq_some_iff.2 ⟨c, hc, hname⟩, hy'⟩
    · cases he
  · rintro ⟨x, hx, hn, hxacc⟩
    obtain ⟨c, block, y, hlive, hlookup, hy, hmin, hny⟩ := exists_representative hn
    have hyacc := (className_eq_iff hD hx hy).1 (hn.trans hny.symm) []
    rw [future_nil, future_nil, hxacc] at hyacc
    refine ⟨(c, block), hlive, ?_⟩
    simp only [hmin, Option.bind_some, hacc hy, ← hyacc, if_true]
    exact hlookup

/-- A name is final exactly if its positions accept. -/
theorem acceptsAt_className (hD : D.WellFormed) {start : State} (hx : D.Reached x) :
    (D.merged start).acceptsAt (D.className x) = D.acceptsAt x := by
  cases hn : D.className x with
  | none => exact ((className_eq_none_iff hD hx).1 hn []).symm
  | some n =>
    rw [acceptsAt_some, Bool.eq_iff_iff, NFA.isFinal_iff, mem_merged_finals hD]
    refine ⟨?_, fun hacc => ?_⟩
    · rintro ⟨y, hy, hny, hacc⟩
      have hsame := (className_eq_iff hD hx hy).1 (hn.trans hny.symm) []
      exact hsame.trans hacc
    · exact ⟨x, hx, hn, hacc⟩

/-! ## The minimal automaton -/

/-- The name that minimization asks for. -/
theorem nameAt_start (D : DFA) :
    (D.merging.points.idxOf? D.start).bind (D.merging.nameAt D.merging.names)
      = D.className (some D.start) := by
  obtain ⟨i, hi⟩ := exists_idxOf?_eq_some (FinSet.mem_toList.2 (D.reached_start _ rfl))
  have hpoints : D.merging.points.idxOf? D.start = some i := hi
  rw [className, number, Option.bind_some, hi, Option.getD_some, hpoints, Option.bind_some]

/-- If the start has a name, minimization answers what was merged. -/
theorem minimize_of_className {n : State} (h : D.className (some D.start) = some n) :
    D.minimize = D.merged n := by
  rw [minimize, nameAt_start, h]
  rfl

/-- If the start has no name, minimization answers a single state. -/
theorem minimize_of_className_none (h : D.className (some D.start) = none) :
    D.minimize = barren D.alphabet (braced D.merging.deadMembers) := by
  rw [minimize, nameAt_start, h]

theorem after_merged (hD : D.WellFormed) {n : State} (h : D.className (some D.start) = some n)
    (w : List Char) :
    (D.merged n).after (some (D.merged n).start) w = D.className (D.after (some D.start) w) := by
  have hstart : some (D.merged n).start = D.className (some D.start) := h.symm
  rw [hstart]
  exact after_of_simulation (P := D.Reached) (fun x hx a => move_className hD hx a)
    (fun x hx a => hx.move a) D.reached_start w

theorem next?_barren (alphabet : FinSet Char) (q p : State) (a : Char) :
    (barren alphabet q).next? p a = none := FunctionalRelation.target?_empty p a

theorem future_barren (alphabet : FinSet Char) (q : State) (w : List Char) :
    (barren alphabet q).future (some q) w = false := by
  cases w with
  | nil => rfl
  | cons a w => rw [future_cons, move_some, next?_barren, future_none]

/-- **Once something was read, the minimal automaton stands at the name of the position.** -/
theorem minimize_after (hD : D.WellFormed) {w : List Char} (hw : w ≠ []) :
    D.minimize.after (some D.minimize.start) w = D.className (D.after (some D.start) w) := by
  cases h : D.className (some D.start) with
  | some n => rw [minimize_of_className h, after_merged hD h]
  | none =>
    have hdead := (className_eq_none_iff hD D.reached_start).1 h
    have hnone : D.className (D.after (some D.start) w) = none := by
      rw [className_eq_none_iff hD (D.reached_start.after w)]
      intro v
      rw [← future_append]
      exact hdead (w ++ v)
    rw [hnone, minimize_of_className_none h]
    obtain ⟨a, v, rfl⟩ := List.exists_cons_of_ne_nil hw
    rw [after_cons, move_some, next?_barren, after_none]

theorem future_minimize (hD : D.WellFormed) (w : List Char) :
    D.minimize.future (some D.minimize.start) w = D.future (some D.start) w := by
  cases h : D.className (some D.start) with
  | some n =>
    rw [minimize_of_className h, future, after_merged hD h,
      acceptsAt_className hD (D.reached_start.after w), future]
  | none =>
    rw [(className_eq_none_iff hD D.reached_start).1 h w, minimize_of_className_none h]
    exact future_barren _ _ w

/-- **The minimal automaton accepts the same tapes.** -/
theorem minimize_accepts_eq (hD : D.WellFormed) (w : List Char) :
    D.minimize.accepts w = D.accepts w := by
  rw [accepts_eq, accepts_eq, future_minimize hD]

/-- The position after a tape has a name exactly if some continuation is accepted. -/
theorem exists_accepts_iff (hD : D.WellFormed) (w : List Char) :
    (∃ v, D.accepts (w ++ v) = true) ↔ D.className (D.after (some D.start) w) ≠ none := by
  rw [ne_eq, className_eq_none_iff hD (D.reached_start.after w), not_forall]
  refine exists_congr fun v => ?_
  rw [accepts_eq, future_append, Bool.not_eq_false]

theorem wellFormed_barren (alphabet : FinSet Char) (q : State) :
    (barren alphabet q).WellFormed :=
  NFA.wellFormed_iff.2 ⟨FinSet.mem_singleton.2 rfl, fun _ h => absurd h FinSet.not_mem_empty,
    fun _ h => absurd h FinSet.not_mem_empty⟩

theorem wellFormed_minimize (hD : D.WellFormed) : D.minimize.WellFormed := by
  cases h : D.className (some D.start) with
  | none =>
    rw [minimize_of_className_none h]
    exact wellFormed_barren _ _
  | some n =>
    rw [minimize_of_className h]
    have hstate : ∀ {x q}, D.className x = some q → q ∈ (D.merged n).states := fun hq =>
      FinSet.mem_ofList.2 (className_mem hq)
    refine NFA.wellFormed_iff.2 ⟨hstate h, fun q hq => ?_, ?_⟩
    · obtain ⟨x, _, hx, _⟩ := (mem_merged_finals hD).1 hq
      exact hstate hx
    · rintro ⟨q, a, p⟩ he
      obtain ⟨x, _, hx, ha, hp⟩ := (mem_merged_edges hD).1 he
      exact ⟨hstate hx, ha, hstate hp⟩

/-- **Minimization keeps the language and leaves out what leads nowhere.**  Once something was read,
a run of the minimal automaton goes on exactly as long as some continuation is accepted. -/
theorem minimize_keeps_language (hD : D.WellFormed) :
    (∀ w, D.minimize.accepts w = D.accepts w) ∧
      ∀ w, w ≠ [] →
        ((∃ l, D.minimize.run w = .complete l) ↔ ∃ v, D.accepts (w ++ v) = true) ∧
        ((∃ l, D.minimize.run w = .stuck l) ↔ ¬ ∃ v, D.accepts (w ++ v) = true) := by
  refine ⟨minimize_accepts_eq hD, fun w hw => ?_⟩
  rw [run_complete_iff, run_stuck_iff, exists_accepts_iff hD, minimize_after hD hw]
  exact ⟨Option.isSome_iff_ne_none, not_not.symm⟩

/-- `p` and `q` can be merged, and nothing is accepted from `r`. -/
def mergeable : DFA :=
  let moves := FunctionalRelation.ofList
    [⟨"s", 'a', "p"⟩, ⟨"s", 'b', "q"⟩, ⟨"p", 'a', "p"⟩, ⟨"q", 'a', "p"⟩, ⟨"q", 'b', "r"⟩]
  { states := FinSet.ofList ["p", "q", "r", "s"]
    alphabet := FinSet.ofList ['a', 'b']
    start := "s"
    finals := FinSet.ofList ["p", "q"]
    edges := moves.edges
    functional := moves.functional }

theorem mergeable_minimize : mergeable.WellFormed ∧
    (∀ w, mergeable.minimize.accepts w = mergeable.accepts w) ∧
      ∀ w, w ≠ [] →
        ((∃ l, mergeable.minimize.run w = .complete l) ↔ ∃ v, mergeable.accepts (w ++ v) = true) ∧
        ((∃ l, mergeable.minimize.run w = .stuck l) ↔ ¬ ∃ v, mergeable.accepts (w ++ v) = true) :=
  ⟨by decide, minimize_keeps_language (by decide)⟩

end DFA

end Automata
