import Automata.Proofs.Minimization
import Automata.Proofs.Obtainable
import Automata.Proofs.RefinementLookups
import Automata.Proofs.SubsetLookups

/-!
# The lookups of minimization

Minimization asks for the numbers of the states that follow reachable ones, for the classes of
points and of the sink, for the least point of a block with its row, and for the names of classes
that moves lead to.  Each of these is there for a reason of its own: nothing leads out of the
reachable states, every point is classified, blocks are numbered as the classes are, and a class
without a name is the one that is left out.  Here each of these lookups may fail.

## What is here

* `DFA.pointTable?`, `DFA.merging?` — the points and their classes.
* `DFA.Merging.names?`, `DFA.Merging.moves?`, `DFA.Merging.finals?` — the names of the surviving
  classes, their moves and which of them are final; `DFA.minimize?` — all of it.
* `DFA.merging?_eq`, `DFA.names?_eq`, `DFA.moves?_eq`, `DFA.finals?_eq` — each of these finds all
  that it looks up, and `DFA.minimize?_eq` — **minimization does.**
* `lookups_succeed` — **no lookup fails** in tabulated acceptance, the subset construction,
  refinement and minimization.
-/

set_option autoImplicit false

namespace Automata

namespace DFA

variable {D : DFA}

/-! ## Points and classes -/

/-- The points that follow a state.  A state that follows must have a number. -/
def pointRow? (D : DFA) (points : List State) (q : State) : Option (List Nat) :=
  D.alphabet.toList.mapM fun a =>
    match D.next? q a with
    | none => some points.length
    | some p => points.idxOf? p

/-- The reachable states as points, with the sink after them. -/
def pointTable? (D : DFA) : Option PointTable := do
  let points := D.reachable.toList
  let rows ← points.mapM (D.pointRow? points)
  return { rows := rows ++ [D.alphabet.toList.map fun _ => points.length]
           accepting := points.map D.isFinal ++ [false] }

/-- The points sorted into blocks, and their classes as the blocks have them. -/
def merging? (D : DFA) : Option Merging := do
  let table ← D.pointTable?
  let partition ← table.partition?
  let classes ← PointTable.classesOf? table.rows.length partition.classes
  return { points := D.reachable.toList
           table := table
           classes := classes
           blocks := partition.classes }

/-- The states that follow reachable states have numbers. -/
theorem pointRow?_eq {q : State} (hq : q ∈ D.reachable) :
    D.pointRow? D.reachable.toList q = some (D.pointRow D.reachable.toList q) := by
  refine mapM_eq_some_map fun a _ => ?_
  cases hp : D.next? q a with
  | none => rfl
  | some p =>
    have hreached := NFA.reachable_closed hq (next?_eq_some_iff.1 hp)
    obtain ⟨i, hi⟩ := exists_idxOf?_eq_some (FinSet.mem_toList.2 hreached)
    simp [hi]

theorem pointTable?_eq (D : DFA) : D.pointTable? = some D.pointTable := by
  rw [pointTable?, mapM_eq_some_map fun q hq => pointRow?_eq (FinSet.mem_toList.1 hq)]
  rfl

/-- **All points are classified**, and the classes can be read off the blocks. -/
theorem merging?_eq (D : DFA) : D.merging? = some D.merging := by
  have ht := regular_pointTable D
  have hclasses : PointTable.classesOf? D.pointTable.rows.length D.pointTable.partition.classes =
      some D.pointTable.classes := by
    rw [← (PointTable.classes_settled ht).length_eq]
    exact PointTable.classesOf?_eq fun c hc => PointTable.mem_classes.1 hc
  simp only [merging?, pointTable?_eq, PointTable.partition?_eq ht, Option.bind_eq_bind,
    Option.bind_some, hclasses]
  rfl

/-! ## Names, moves and final classes -/

namespace Merging

/-- The names of the surviving classes.  The points of a surviving class must be states. -/
def names? (m : Merging) : Option (List (Nat × State)) := do
  let requests ← m.live.mapM fun entry =>
    (entry.2.toList.mapM fun p => m.points[p]?).map braced
  return (m.live.map Prod.fst).zip (supply [] requests)

/-- The move of a class along one symbol.  The point that it leads to must have a class, and this
class must have a name unless it is the one that is left out. -/
def move? (m : Merging) (dead : Nat) (names : List (Nat × State)) (name : State)
    (row : List Nat) (entry : Char × Nat) : Option (Option Edge) := do
  let p ← row[entry.2]?
  let target ← m.classes[p]?
  if target = dead then return none
  else return some ⟨name, entry.1, ← names.lookup target⟩

/-- The moves of a class.  There must be a block for it, and a row for the least point of the
block. -/
def movesOf? (m : Merging) (dead : Nat) (alphabet : List Char) (names : List (Nat × State))
    (entry : Nat × State) : Option (List Edge) := do
  let block ← m.blocks[entry.1]?
  match block.min? with
  | none => return []
  | some p =>
    let row ← m.table.rows[p]?
    let moves ← alphabet.zipIdx.mapM (m.move? dead names entry.2 row)
    return moves.filterMap id

/-- The moves of all classes that have names. -/
def moves? (m : Merging) (dead : Nat) (alphabet : List Char) (names : List (Nat × State)) :
    Option (List Edge) := do
  return (← names.mapM (m.movesOf? dead alphabet names)).flatten

/-- The name of a class, if the class is final.  There must be a block for it, and it must be known
whether the least point of the block is accepting. -/
def finalOf? (m : Merging) (entry : Nat × State) : Option (Option State) := do
  let block ← m.blocks[entry.1]?
  match block.min? with
  | none => return none
  | some p => return if ← m.table.accepting[p]? then some entry.2 else none

/-- The names of all final classes. -/
def finals? (m : Merging) (names : List (Nat × State)) : Option (List State) := do
  return (← names.mapM m.finalOf?).filterMap id

end Merging

/-- The minimal automaton, if no lookup fails. -/
def minimize? (D : DFA) : Option DFA := do
  let m ← D.merging?
  let dead ← m.classes[m.points.length]?
  let start ← m.classes[← m.points.idxOf? D.start]?
  if start = dead then
    let block ← m.blocks[dead]?
    let members ← (block.toList.filter (· ≠ m.points.length)).mapM fun p => m.points[p]?
    return barren D.alphabet (braced members)
  else
    let names ← m.names?
    let moves := FunctionalRelation.ofList (← m.moves? dead D.alphabet.toList names)
    return { states := FinSet.ofList (names.map Prod.snd)
             alphabet := D.alphabet
             start := ← names.lookup start
             finals := FinSet.ofList (← m.finals? names)
             edges := moves.edges
             functional := moves.functional }

/-! ## Why nothing is missing -/

/-- A point of a class is in a block only if this is the block of its class. -/
theorem classes_of_mem_blocks {c p : Nat} {block : FinSet Nat}
    (hblock : D.merging.blocks[c]? = some block) (hp : p ∈ block) :
    D.merging.classes[p]? = some c := by
  obtain ⟨_, rfl⟩ := PointTable.getElem?_blocks.1 hblock
  exact PointTable.mem_block.1 hp

/-- All points but the sink are states. -/
theorem exists_point {p : Nat} (hp : p < D.merging.classes.length)
    (hsink : p ≠ D.merging.points.length) : ∃ q, D.merging.points[p]? = some q := by
  have hlen : D.merging.classes.length = D.merging.points.length + 1 :=
    (PointTable.classes_settled (regular_pointTable D)).length_eq.trans length_rows
  exact ⟨_, List.getElem?_eq_getElem (by omega)⟩

/-- The points of a surviving class are states. -/
theorem exists_point_of_mem_live {c p : Nat} {block : FinSet Nat}
    (hlive : (c, block) ∈ D.merging.live) (hp : p ∈ block) :
    ∃ q, D.merging.points[p]? = some q := by
  obtain ⟨hblock, hdead⟩ := mem_live.1 hlive
  have hclass := classes_of_mem_blocks hblock hp
  refine exists_point (List.getElem?_eq_some_iff.1 hclass).1 ?_
  rintro rfl
  exact hdead hclass

theorem names?_eq (D : DFA) : D.merging.names? = some D.merging.names := by
  have hrequests : D.merging.live.mapM (fun entry =>
      (entry.2.toList.mapM fun p => D.merging.points[p]?).map braced) =
        some (D.merging.live.map fun entry => braced (D.merging.members entry.2)) := by
    refine mapM_eq_some_map fun entry hentry => ?_
    rw [mapM_eq_some_filterMap fun p hp => exists_point_of_mem_live hentry hp]
    rfl
  rw [Merging.names?, hrequests]
  rfl

/-- What is computed for all names is what is computed for the blocks of the surviving classes. -/
theorem mapM_names {β : Type} {f : Nat × State → Option β} {g : Nat × FinSet Nat → β}
    (h : ∀ c block name, (c, block) ∈ D.merging.live → D.merging.names.lookup c = some name →
      f (c, name) = some (g (c, block))) :
    D.merging.names.mapM f = some (D.merging.live.map g) := by
  let ofClass (c : Nat) : β := g (c, D.merging.blocks[c]?.getD ∅)
  have hnames : D.merging.names.mapM f =
      some (D.merging.names.map fun entry => ofClass entry.1) := by
    refine mapM_eq_some_map fun entry hentry => ?_
    obtain ⟨block, hlive⟩ := exists_mem_live hentry
    rw [h entry.1 block entry.2 hlive ((naming_names D).lookup_eq_some_iff.2 hentry)]
    simp [ofClass, (mem_live.1 hlive).1]
  have hlive : D.merging.live.map g = D.merging.live.map fun entry => ofClass entry.1 := by
    refine List.map_congr_left fun entry hentry => ?_
    simp [ofClass, (mem_live.1 hentry).1]
  have hkeys := congrArg (List.map ofClass) (map_fst_names D)
  rw [List.map_map, List.map_map] at hkeys
  rw [hnames, hlive]
  exact congrArg some hkeys

/-- A class that is not left out has a name. -/
theorem lookup_names {x : Option State} {c : Nat} (hc : D.classOf x = some c)
    (hdead : D.classOf none ≠ some c) : ∃ n, D.className x = some n ∧
      D.merging.names.lookup c = some n := by
  have hname : D.className x ≠ none := fun hnone =>
    hdead (className_eq_none_iff_classOf.1 hnone ▸ hc)
  obtain ⟨n, hn⟩ := Option.ne_none_iff_exists'.1 hname
  obtain ⟨k, hk, hmem⟩ := className_eq_some_iff.1 hn
  obtain rfl : k = c := Option.some_inj.1 (hk.symm.trans hc)
  exact ⟨n, hn, (naming_names D).lookup_eq_some_iff.2 hmem⟩

/-- The move of a class along a symbol, as its least point has it. -/
theorem move?_eq {dead i : Nat} (hdead : D.classOf none = some dead) {y : Option State} {a : Char}
    (ha : D.alphabet.toList[i]? = some a) (name : State) :
    D.merging.move? dead D.merging.names name
        (D.alphabet.toList.map fun a => D.number (D.move y a)) (a, i) =
      some ((D.className (D.move y a)).map fun name' => ⟨name, a, name'⟩) := by
  obtain ⟨target, htarget⟩ := D.exists_classOf (D.move y a)
  have hclass : D.merging.classes[D.number (D.move y a)]? = some target := htarget
  have hpoint : (D.alphabet.toList.map fun a => D.number (D.move y a))[i]? =
      some (D.number (D.move y a)) := by rw [List.getElem?_map, ha, Option.map_some]
  rw [Merging.move?, hpoint]
  simp only [Option.bind_eq_bind, Option.bind_some, hclass]
  by_cases heq : target = dead
  · have hnone : D.className (D.move y a) = none :=
      className_eq_none_iff_classOf.2 (by rw [htarget, hdead, heq])
    rw [if_pos heq, hnone]
    rfl
  · obtain ⟨n, hn, hlookup⟩ := lookup_names htarget fun h =>
      heq (Option.some_inj.1 (h.symm.trans hdead))
    rw [if_neg heq, hlookup, hn]
    rfl

/-- **All moves of surviving classes are found.** -/
theorem moves?_eq {dead : Nat} (hdead : D.classOf none = some dead) :
    D.merging.moves? dead D.alphabet.toList D.merging.names =
      some (D.merging.edges D.alphabet.toList D.merging.names) := by
  rw [Merging.moves?, Merging.edges, List.flatMap_def, mapM_names]
  · rfl
  · intro c block name hlive hname
    obtain ⟨y, hy, hmin, _⟩ := exists_least hlive
    have hrow : D.merging.table.rows[D.number y]? =
        some (D.alphabet.toList.map fun a => D.number (D.move y a)) := getElem?_rows hy
    have hmoves : D.alphabet.toList.zipIdx.mapM (D.merging.move? dead D.merging.names name
        (D.alphabet.toList.map fun a => D.number (D.move y a))) =
          some (D.alphabet.toList.zipIdx.map fun entry =>
            (D.className (D.move y entry.1)).map fun name' => ⟨name, entry.1, name'⟩) :=
      mapM_eq_some_map fun entry hentry =>
        move?_eq hdead (List.mk_mem_zipIdx_iff_getElem?.1 hentry) name
    have hlist : (D.alphabet.toList.zipIdx.map fun entry =>
        (D.className (D.move y entry.1)).map fun name' => (⟨name, entry.1, name'⟩ : Edge)) =
          D.alphabet.toList.map fun a =>
            (D.className (D.move y a)).map fun name' => (⟨name, a, name'⟩ : Edge) := by
      conv_rhs => rw [← List.zipIdx_map_fst 0 D.alphabet.toList, List.map_map]
      rfl
    rw [Merging.movesOf?, (mem_live.1 hlive).1]
    simp only [Option.bind_eq_bind, Option.bind_some, hmin, hrow, hmoves, hname, hlist,
      ← List.map_prod_left_eq_zip, List.filterMap_map]
    rfl

theorem finals?_eq (D : DFA) : D.merging.finals? D.merging.names =
    some (D.merging.finals D.merging.names) := by
  have hfinals : D.merging.names.mapM D.merging.finalOf? =
      some (D.merging.live.map fun entry =>
        if entry.2.min?.bind (fun p => D.merging.table.accepting[p]?) = some true
        then D.merging.names.lookup entry.1 else none) := by
    refine mapM_names fun c block name hlive hname => ?_
    obtain ⟨y, hy, hmin, _⟩ := exists_least hlive
    have haccepting : D.merging.table.accepting[D.number y]? = some (D.acceptsAt y) :=
      getElem?_accepting hy
    rw [Merging.finalOf?, (mem_live.1 hlive).1]
    simp only [Option.bind_eq_bind, Option.bind_some, hmin, haccepting, hname]
    cases D.acceptsAt y <;> rfl
  rw [Merging.finals?, hfinals, Merging.finals]
  simp only [Option.bind_eq_bind, Option.bind_some, List.filterMap_map]
  rfl

/-- The states of a block, among which the sink is not. -/
theorem mapM_members {c : Nat} {block : FinSet Nat} (hblock : D.merging.blocks[c]? = some block) :
    (block.toList.filter (· ≠ D.merging.points.length)).mapM (fun p => D.merging.points[p]?) =
      some (D.merging.members block) := by
  have hpoint : ∀ p ∈ block.toList.filter (· ≠ D.merging.points.length),
      ∃ q, D.merging.points[p]? = some q := by
    intro p hp
    obtain ⟨hp, hsink⟩ := List.mem_filter.1 hp
    have hclass := classes_of_mem_blocks hblock hp
    exact exists_point (List.getElem?_eq_some_iff.1 hclass).1 (of_decide_eq_true hsink)
  rw [mapM_eq_some_filterMap hpoint, List.filterMap_filter, Merging.members]
  refine congrArg some (List.filterMap_congr fun p _ => ?_)
  by_cases hsink : p = D.merging.points.length
  · simp [hsink]
  · simp [hsink]

/-- **Minimization finds all that it looks up**, and yields the minimal automaton. -/
theorem minimize?_eq (D : DFA) : D.minimize? = some D.minimize := by
  obtain ⟨dead, hdead⟩ := D.exists_classOf none
  obtain ⟨c, hc⟩ := D.exists_classOf (some D.start)
  obtain ⟨i, hi⟩ := exists_idxOf?_eq_some (FinSet.mem_toList.2 (D.reached_start _ rfl))
  have hsink : D.merging.classes[D.merging.points.length]? = some dead := hdead
  have hstart : D.merging.points.idxOf? D.start = some i := hi
  have hclass : D.merging.classes[i]? = some c := by
    have hpoint := (idxOf?_eq_some_iff_getElem? D.reachable.nodup).1 hi
    rwa [classOf, number_eq_of_getElem? hpoint] at hc
  rw [minimize?, merging?_eq]
  simp only [Option.bind_eq_bind, Option.bind_some, hsink, hstart, hclass]
  by_cases heq : c = dead
  · subst heq
    have hnone : D.className (some D.start) = none :=
      className_eq_none_iff_classOf.2 (hc.trans hdead.symm)
    obtain ⟨block, hblock⟩ : ∃ block, D.merging.blocks[c]? = some block :=
      ⟨_, PointTable.getElem?_blocks.2
        ⟨PointTable.mem_classes.1 (List.mem_of_getElem? hdead), rfl⟩⟩
    have hmembers : D.merging.deadMembers = D.merging.members block := by
      rw [Merging.deadMembers, Merging.dead, hsink, Option.bind_some, hblock, Option.getD_some]
    rw [if_pos rfl, hblock, Option.bind_some, mapM_members hblock, minimize_of_className_none hnone,
      hmembers]
    rfl
  · obtain ⟨n, hn, hlookup⟩ := lookup_names hc fun h =>
      heq (Option.some_inj.1 (h.symm.trans hdead))
    rw [if_neg heq, names?_eq, minimize_of_className hn]
    simp only [Option.bind_some, moves?_eq hdead, finals?_eq, hlookup]
    rfl

end DFA

/-- **No lookup fails.**  On every automaton that can be obtained and every tape, the tabulated form
finds the numbers and rows that it looks up.  The subset construction finds the name of every set
that it serves, pass after pass until it has constructed the determinized automaton.  Refinement of
a regular table finds all classes and blocks, and minimization all numbers, classes, blocks, rows
and names.  Each of them yields what it yields without asking whether something is there. -/
theorem lookups_succeed :
    (∀ A : NFA, A.Obtainable → ∀ tape,
      A.acceptsTabulated? tape = some (A.acceptsTabulated tape)) ∧
    (∀ (A : NFA) (k : Nat), ∃ x, A.ConstructsSafely k x) ∧
    (∀ (t : PointTable) (width : Nat), t.Regular width → t.partition? = some t.partition) ∧
    ∀ D : DFA, D.pointTable.Regular D.alphabet.toList.length ∧ D.minimize? = some D.minimize := by
  refine ⟨fun A hA tape => ?_, fun A k => A.exists_constructed k, fun t width ht => ?_,
    fun D => ?_⟩
  · exact NFA.acceptsTabulated?_eq hA.wellFormed tape
  · exact PointTable.partition?_eq ht
  · exact ⟨DFA.regular_pointTable D, D.minimize?_eq⟩

theorem branching_lookups_succeed :
    (branching.Obtainable ∧ branching.acceptsTabulated? ['a', 'b', 'c', 'a'] =
      some (branching.acceptsTabulated ['a', 'b', 'c', 'a'])) ∧
    (∃ x, branching.ConstructsSafely 3 x) ∧
    (branching.determinize.pointTable.Regular branching.alphabet.toList.length ∧
      branching.determinize.pointTable.partition? =
        some branching.determinize.pointTable.partition) ∧
    branching.determinize.minimize? = some branching.determinize.minimize := by
  obtain ⟨htabulated, hconstruction, hrefinement, hminimization⟩ := lookups_succeed
  obtain ⟨hregular, hminimize⟩ := hminimization branching.determinize
  exact ⟨⟨branching_obtainable, htabulated branching branching_obtainable _⟩,
    hconstruction branching 3, ⟨hregular, hrefinement _ _ hregular⟩, hminimize⟩

end Automata
