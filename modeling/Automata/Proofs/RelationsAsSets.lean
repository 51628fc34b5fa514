import Automata.Proofs.Ambiguity
import Automata.Proofs.TransitionMaps
import Mathlib.Data.Set.Function

/-!
# Transition relations are the sets that were inserted

A transition relation is filled edge by edge, and states are replaced by filling a new relation with
the images of the edges, in whatever order these happen to be listed.  That it is nothing but the set
of its edges must therefore hold after any history of insertions, and for any order in which a
relation is gone through.

## What is here

* `RelationKind` — what can be done with the relations of one kind: those of this library
  (`RelationKind.flat`, `RelationKind.functional`) and maps in two layers (`RelationKind.layered`).
* `Kept` — the edges that are left of a history of insertions.
* `RelationKind.Lawful` — what an insertion changes, for each of the kinds, and
  `RelationKind.Lawful.mem_transitions_fill` — **what is listed is what is kept.**
* `RelationKind.BehavesAsSet` — what follows for lookups, listings, equality and the replacement of
  states; `RelationKind.relations_behave_as_sets` — **it holds of all of them, after any insertions.**
-/

set_option autoImplicit false

namespace Automata

/-- Of two edges that compete, each leaves the state of the other along its symbol. -/
theorem Edge.leaves_comm (d e : Edge) :
    d.leaves e.source e.symbol = e.leaves d.source d.symbol := by
  rw [Bool.eq_iff_iff, Edge.leaves_iff, Edge.leaves_iff, eq_comm, @eq_comm _ d.symbol]

/-- There is nothing more to a functional relation than its edges. -/
theorem FunctionalRelation.eq_of_edges_eq {r s : FunctionalRelation} (h : r.edges = s.edges) :
    r = s := by
  cases r
  cases s
  cases h
  rfl

/-! ## Histories of insertions -/

/-- The edges that are left after the edges of a list were inserted one after the other, where an
edge may have to make room for later ones that compete with it: those that were inserted, or those
that were inserted last for their state and symbol. -/
def Kept (single : Bool) (l : List Edge) (e : Edge) : Prop :=
  match single with
  | false => e ∈ l
  | true => ∃ earlier later, l = earlier ++ e :: later ∧
      ∀ d ∈ later, d.source = e.source → d.symbol ≠ e.symbol

namespace Kept

variable {single : Bool} {l : List Edge} {d e : Edge}

theorem not_nil : ¬Kept single [] e := by
  cases single with
  | false => exact List.not_mem_nil
  | true =>
    rintro ⟨earlier, later, h, _⟩
    exact absurd h.symm (by simp)

/-- What is left after one more insertion. -/
theorem concat_iff : Kept single (l ++ [d]) e ↔
    e = d ∨ Kept single l e ∧ (single = true → d.leaves e.source e.symbol = false) := by
  cases single with
  | false => simp [Kept, or_comm]
  | true =>
    have hleaves : d.leaves e.source e.symbol = false ↔
        (d.source = e.source → d.symbol ≠ e.symbol) := by
      simp [Edge.leaves]
    simp only [Kept, forall_const, hleaves]
    constructor
    · rintro ⟨earlier, later, h, hlater⟩
      rcases List.eq_nil_or_concat later with rfl | ⟨later, d', rfl⟩
      · obtain ⟨_, hd⟩ := List.append_inj' h rfl
        exact .inl (List.singleton_inj.1 hd).symm
      · rw [List.concat_eq_append, ← List.cons_append, ← List.append_assoc] at h
        rw [List.concat_eq_append] at hlater
        obtain ⟨rfl, hd⟩ := List.append_inj' h rfl
        obtain rfl := List.singleton_inj.1 hd
        exact .inr ⟨⟨earlier, later, rfl, fun x hx => hlater x (List.mem_append_left _ hx)⟩,
          hlater d (List.mem_append_right _ (List.mem_singleton_self d))⟩
    · rintro (rfl | ⟨⟨earlier, later, rfl, hlater⟩, hd⟩)
      · exact ⟨l, [], rfl, fun x hx => absurd hx List.not_mem_nil⟩
      · refine ⟨earlier, later ++ [d], by simp, fun x hx => ?_⟩
        rcases List.mem_append.1 hx with hx | hx
        · exact hlater x hx
        · exact List.mem_singleton.1 hx ▸ hd

theorem mem (h : Kept single l e) : e ∈ l := by
  cases single with
  | false => exact h
  | true =>
    obtain ⟨earlier, later, rfl, _⟩ := h
    exact List.mem_append_right _ List.mem_cons_self

/-- Of the edges that compete with each other, one is left at most. -/
theorem unique (h : Kept true l d) (h' : Kept true l e) (hsource : d.source = e.source)
    (hsymbol : d.symbol = e.symbol) : d = e := by
  induction l using List.reverseRecOn with
  | nil => exact absurd h not_nil
  | append_singleton l x ih =>
    rcases concat_iff.1 h with rfl | ⟨h, hx⟩
    · rcases concat_iff.1 h' with rfl | ⟨_, hd⟩
      · rfl
      · exact absurd (Edge.leaves_iff.2 ⟨hsource, hsymbol⟩) (by simp [hd rfl])
    · rcases concat_iff.1 h' with rfl | ⟨h', _⟩
      · exact absurd (Edge.leaves_iff.2 ⟨hsource.symm, hsymbol.symm⟩) (by simp [hx rfl])
      · exact ih h h'

/-- If no two edges compete, none has to make room. -/
theorem of_mem (hl : ∀ d ∈ l, ∀ e ∈ l, d.source = e.source → d.symbol = e.symbol → d = e)
    (he : e ∈ l) : Kept single l e := by
  induction l using List.reverseRecOn with
  | nil => exact absurd he List.not_mem_nil
  | append_singleton l x ih =>
    have hx : x ∈ l ++ [x] := List.mem_append_right _ (List.mem_singleton_self x)
    refine concat_iff.2 (or_iff_not_imp_left.2 fun hne => ⟨ih (fun d hd e he => ?_) ?_, fun _ => ?_⟩)
    · exact hl d (List.mem_append_left _ hd) e (List.mem_append_left _ he)
    · exact (List.mem_append.1 he).resolve_right (mt List.mem_singleton.1 hne)
    · refine Bool.eq_false_iff.2 fun hleaves => hne ?_
      obtain ⟨hsource, hsymbol⟩ := Edge.leaves_iff.1 hleaves
      exact (hl x hx e he hsource hsymbol).symm

end Kept

/-! ## Kinds of relations -/

/-- What can be done with the transition relations of one kind. -/
structure RelationKind (R : Type) where
  /-- Whether a state has only one successor on a symbol. -/
  single : Bool
  /-- The relation without transitions. -/
  empty : R
  /-- The relation with one more transition. -/
  insert : Edge → R → R
  /-- The states that can be entered from a state on a symbol. -/
  successors : R → State → Char → List State
  /-- All transitions. -/
  transitions : R → List Edge

namespace RelationKind

variable {R β : Type} {T : RelationKind R} {l : List Edge} {d e : Edge}

/-- The relation after the edges were inserted, one after the other. -/
def fill (T : RelationKind R) (l : List Edge) : R := l.foldl (fun r e => T.insert e r) T.empty

/-- The relation of the images of transitions that are met in the given order. -/
def mapAlong (T : RelationKind R) (f : State → State) (order : List Edge) : R :=
  T.fill (order.map (Edge.map f))

/-- The relation with every state replaced by its image. -/
def mapStates (T : RelationKind R) (f : State → State) (r : R) : R :=
  T.mapAlong f (T.transitions r)

/-- The states that occur in the transitions. -/
def occurring (T : RelationKind R) (r : R) : Set State :=
  {q | ∃ e ∈ T.transitions r, e.source = q ∨ e.target = q}

/-- States may be replaced by any images, but where a state has only one successor on a symbol, those
that occur must stay apart. -/
def Admits (T : RelationKind R) (r : R) (f : State → State) : Prop :=
  T.single = true → Set.InjOn f (T.occurring r)

/-- Relations of any number of targets, as the library has them. -/
def flat : RelationKind Relation where
  single := false
  empty := ∅
  insert := FinSet.insert
  successors r q a := (r.targets q a).toList
  transitions r := r.toList

/-- Functional relations, as the library has them. -/
def functional : RelationKind FunctionalRelation where
  single := true
  empty := ∅
  insert := FunctionalRelation.insert
  successors r q a := (r.target? q a).toList
  transitions r := r.edges.toList

/-- Maps in two layers. -/
def layered (K : Cell β) : RelationKind (TransitionMap β) where
  single := K.single
  empty := ∅
  insert := TransitionMap.insert K
  successors := TransitionMap.successors K
  transitions := TransitionMap.transitions K

theorem fill_concat (T : RelationKind R) (l : List Edge) (e : Edge) :
    T.fill (l ++ [e]) = T.insert e (T.fill l) := List.foldl_concat ..

/-! ## What an insertion does -/

/-- What is asked of a kind of relations: what is in a relation after an insertion, and that there
is nothing more to a relation than its transitions. -/
structure Lawful (T : RelationKind R) : Prop where
  /-- There is nothing in the relation without transitions. -/
  not_mem_empty : ∀ e, e ∉ T.transitions T.empty
  /-- An inserted transition joins the others, or replaces the one that it competes with. -/
  mem_insert : ∀ r d e, e ∈ T.transitions (T.insert d r) ↔
    e = d ∨ e ∈ T.transitions r ∧ (T.single = true → d.leaves e.source e.symbol = false)
  /-- Successors are the targets of transitions. -/
  mem_successors : ∀ r q a p, p ∈ T.successors r q a ↔ (⟨q, a, p⟩ : Edge) ∈ T.transitions r
  /-- No transition is listed twice, -/
  nodup : ∀ r, (T.transitions r).Nodup
  /-- and no successor. -/
  nodup_successors : ∀ r q a, (T.successors r q a).Nodup
  /-- Relations with the same transitions are equal, if they were filled by insertions. -/
  ext : ∀ l l', (∀ e, e ∈ T.transitions (T.fill l) ↔ e ∈ T.transitions (T.fill l')) →
    T.fill l = T.fill l'

theorem lawful_flat : flat.Lawful where
  not_mem_empty _ := FinSet.not_mem_empty
  mem_insert r d e := by simp [flat]
  mem_successors r q a p := Relation.mem_targets
  nodup r := FinSet.nodup r
  nodup_successors r q a := FinSet.nodup (r.targets q a)
  ext _ _ := FinSet.ext

theorem lawful_functional : functional.Lawful where
  not_mem_empty _ := FinSet.not_mem_empty
  mem_insert r d e := by simp [functional, FunctionalRelation.insert, Edge.leaves_comm d]
  mem_successors r q a p := by
    simp [functional, FunctionalRelation.target?_eq_some_iff]
  nodup r := FinSet.nodup r.edges
  nodup_successors r q a := by
    change (r.target? q a).toList.Nodup
    cases r.target? q a with
    | none => exact .nil
    | some p => exact List.nodup_singleton p
  ext l l' h := by
    have hedges : (functional.fill l).edges = (functional.fill l').edges := FinSet.ext h
    exact FunctionalRelation.eq_of_edges_eq hedges

theorem noLeftovers_fill (K : Cell β) (l : List Edge) :
    TransitionMap.NoLeftovers K ((layered K).fill l) := by
  induction l using List.reverseRecOn with
  | nil => exact TransitionMap.noLeftovers_empty K
  | append_singleton l e ih =>
    rw [fill_concat]
    exact TransitionMap.noLeftovers_insert ih e

theorem lawful_layered (K : Cell β) : (layered K).Lawful where
  not_mem_empty e h := by
    obtain ⟨_, hc, _⟩ := TransitionMap.mem_successors_iff.1 (TransitionMap.mem_transitions_iff.1 h)
    cases hc
  mem_insert r d e := TransitionMap.mem_transitions_insert
  mem_successors r q a p := (TransitionMap.mem_transitions_iff (e := ⟨q, a, p⟩)).symm
  nodup r := TransitionMap.nodup_transitions K r
  nodup_successors r q a := TransitionMap.nodup_successors K r q a
  ext l l' h := TransitionMap.eq_of_noLeftovers (noLeftovers_fill K l) (noLeftovers_fill K l')
    fun q a p => by
      simpa [layered, TransitionMap.mem_transitions_iff] using h ⟨q, a, p⟩

namespace Lawful

variable {f g : State → State} {order : List Edge}

/-- **What is listed after some insertions is what is left of them.** -/
theorem mem_transitions_fill (hT : T.Lawful) :
    e ∈ T.transitions (T.fill l) ↔ Kept T.single l e := by
  induction l using List.reverseRecOn with
  | nil => exact iff_of_false (hT.not_mem_empty e) Kept.not_nil
  | append_singleton l d ih => rw [fill_concat, hT.mem_insert, ih, Kept.concat_iff]

/-! ## Replacing states -/

/-- Images compete only if they are images of the same transition. -/
theorem map_eq_of_competes (hT : T.Lawful) (hf : T.Admits (T.fill l) f) (hsingle : T.single = true)
    (hd : d ∈ T.transitions (T.fill l)) (he : e ∈ T.transitions (T.fill l))
    (hsource : f d.source = f e.source) (hsymbol : d.symbol = e.symbol) : d = e := by
  have hkept := fun {x} (hx : x ∈ T.transitions (T.fill l)) =>
    hsingle ▸ hT.mem_transitions_fill.1 hx
  refine (hkept hd).unique (hkept he) (hf hsingle ?_ ?_ hsource) hsymbol
  · exact ⟨d, hd, .inl rfl⟩
  · exact ⟨e, he, .inl rfl⟩

/-- **The transitions of the new relation are the images of the old ones**, in whatever order these
were met. -/
theorem mem_mapAlong (hT : T.Lawful) (hf : T.Admits (T.fill l) f)
    (horder : order.Perm (T.transitions (T.fill l))) :
    e ∈ T.transitions (T.mapAlong f order) ↔ ∃ d ∈ T.transitions (T.fill l), d.map f = e := by
  have hmem : e ∈ order.map (Edge.map f) ↔ ∃ d ∈ T.transitions (T.fill l), d.map f = e := by
    simp only [List.mem_map, horder.mem_iff]
  rw [mapAlong, hT.mem_transitions_fill, ← hmem]
  refine ⟨Kept.mem, fun he => ?_⟩
  cases hsingle : T.single with
  | false => exact he
  | true =>
    refine Kept.of_mem ?_ he
    intro x hx y hy hsource hsymbol
    obtain ⟨d, hd, rfl⟩ := List.mem_map.1 hx
    obtain ⟨d', hd', rfl⟩ := List.mem_map.1 hy
    rw [hT.map_eq_of_competes hf hsingle (horder.mem_iff.1 hd) (horder.mem_iff.1 hd') hsource
      hsymbol]

theorem mem_mapStates (hT : T.Lawful) (hf : T.Admits (T.fill l) f) :
    e ∈ T.transitions (T.mapStates f (T.fill l)) ↔
      ∃ d ∈ T.transitions (T.fill l), d.map f = e :=
  hT.mem_mapAlong hf (.refl _)

/-- In which order the transitions are met makes no difference. -/
theorem mapAlong_eq_mapStates (hT : T.Lawful) (hf : T.Admits (T.fill l) f)
    (horder : order.Perm (T.transitions (T.fill l))) :
    T.mapAlong f order = T.mapStates f (T.fill l) :=
  hT.ext _ _ fun _ => (hT.mem_mapAlong hf horder).trans (hT.mem_mapStates hf).symm

-- If states are merged whose successors stay apart, the order does make a difference.
example :
    let f : State → State := fun q => if q = "r" then "p" else q
    functional.mapAlong f [⟨"p", 'a', "q"⟩, ⟨"r", 'a', "s"⟩] ≠
      functional.mapAlong f [⟨"r", 'a', "s"⟩, ⟨"p", 'a', "q"⟩] := by
  decide

/-- Images of states that occur do occur. -/
theorem mapsTo_occurring (hT : T.Lawful) (hf : T.Admits (T.fill l) f) :
    Set.MapsTo f (T.occurring (T.fill l)) (T.occurring (T.mapStates f (T.fill l))) := by
  rintro q ⟨e, he, hq⟩
  refine ⟨e.map f, (hT.mem_mapStates hf).2 ⟨e, he, rfl⟩, ?_⟩
  exact hq.imp (congrArg f) (congrArg f)

/-- **To replace states twice is to replace them by the images of their images.** -/
theorem mapStates_mapStates (hT : T.Lawful) (hf : T.Admits (T.fill l) f)
    (hg : T.Admits (T.mapStates f (T.fill l)) g) :
    T.mapStates g (T.mapStates f (T.fill l)) = T.mapStates (g ∘ f) (T.fill l) := by
  have hgf : T.Admits (T.fill l) (g ∘ f) := fun hsingle =>
    (hg hsingle).comp (hf hsingle) (hT.mapsTo_occurring hf)
  refine hT.ext _ _ fun e => ?_
  calc e ∈ T.transitions (T.mapStates g (T.mapStates f (T.fill l)))
      ↔ ∃ d ∈ T.transitions (T.mapStates f (T.fill l)), d.map g = e := hT.mem_mapStates hg
    _ ↔ ∃ d ∈ T.transitions (T.fill l), d.map (g ∘ f) = e := by
        simp only [hT.mem_mapStates hf, exists_exists_and_eq_and]
        rfl
    _ ↔ e ∈ T.transitions (T.mapStates (g ∘ f) (T.fill l)) := (hT.mem_mapStates hgf).symm

end Lawful

/-- A relation that was filled with the edges of a list is the set of those that are left. -/
structure BehavesAsSet (T : RelationKind R) (l : List Edge) : Prop where
  /-- The successors of a state on a symbol are the targets that are left, each of them once. -/
  successor_iff : ∀ q a p, p ∈ T.successors (T.fill l) q a ↔ Kept T.single l ⟨q, a, p⟩
  successors_nodup : ∀ q a, (T.successors (T.fill l) q a).Nodup
  /-- The transitions are the edges that are left, each of them once. -/
  transition_iff : ∀ e, e ∈ T.transitions (T.fill l) ↔ Kept T.single l e
  transitions_nodup : (T.transitions (T.fill l)).Nodup
  /-- Relations with the same transitions are equal, and no others. -/
  eq_iff : ∀ l', T.fill l = T.fill l' ↔
    ∀ e, e ∈ T.transitions (T.fill l) ↔ e ∈ T.transitions (T.fill l')
  /-- To replace states is to take the images of the transitions, -/
  image_iff : ∀ f, T.Admits (T.fill l) f → ∀ e,
    e ∈ T.transitions (T.mapStates f (T.fill l)) ↔ ∃ d ∈ T.transitions (T.fill l), d.map f = e
  /-- in whatever order they are met. -/
  order_irrelevant : ∀ f, T.Admits (T.fill l) f → ∀ order, order.Perm (T.transitions (T.fill l)) →
    T.mapAlong f order = T.mapStates f (T.fill l)
  /-- To replace states twice is to replace them once. -/
  map_map : ∀ f g, T.Admits (T.fill l) f → T.Admits (T.mapStates f (T.fill l)) g →
    T.mapStates g (T.mapStates f (T.fill l)) = T.mapStates (g ∘ f) (T.fill l)

theorem Lawful.behavesAsSet (hT : T.Lawful) (l : List Edge) : T.BehavesAsSet l where
  successor_iff q a p := (hT.mem_successors _ q a p).trans hT.mem_transitions_fill
  successors_nodup := hT.nodup_successors _
  transition_iff _ := hT.mem_transitions_fill
  transitions_nodup := hT.nodup _
  eq_iff l' := ⟨fun h _ => h ▸ Iff.rfl, hT.ext l l'⟩
  image_iff _ hf _ := hT.mem_mapStates hf
  order_irrelevant _ hf _ := hT.mapAlong_eq_mapStates hf
  map_map _ _ := hT.mapStates_mapStates

/-- Two kinds of relations list the same transitions after the same insertions, if both or neither
replace what competes. -/
theorem Lawful.mem_transitions_fill_iff {R' : Type} {T' : RelationKind R'} (hT : T.Lawful)
    (hT' : T'.Lawful) (hsingle : T.single = T'.single) :
    e ∈ T.transitions (T.fill l) ↔ e ∈ T'.transitions (T'.fill l) := by
  rw [hT.mem_transitions_fill, hT'.mem_transitions_fill, hsingle]

/-- To replace states in a relation is to insert the images of its edges. -/
theorem mapStates_flat (f : State → State) (r : Relation) :
    flat.mapStates f r = Relation.mapStates f r := by
  refine FinSet.ext fun e => ?_
  have hinsert : e ∈ flat.mapStates f r ↔ e ∈ r.toList.map (Edge.map f) :=
    Relation.mem_insertAll
  rw [hinsert, List.mem_map, Relation.mapStates, FinSet.mem_map]
  rfl

/-- **Transition relations are the finite sets that were inserted**, after any insertions.  This holds
of the relations of this library and of maps in two layers, which list the same transitions, whether
a state may have several successors on a symbol or only the last one. -/
theorem relations_behave_as_sets (l : List Edge) :
    (flat.BehavesAsSet l ∧ functional.BehavesAsSet l) ∧
    ((layered .all).BehavesAsSet l ∧ (layered .last).BehavesAsSet l) ∧
    (flat.fill l = Relation.insertAll l ∧ functional.fill l = FunctionalRelation.ofList l) ∧
    (∀ e, (e ∈ (layered .all).transitions ((layered .all).fill l) ↔ e ∈ Relation.insertAll l) ∧
      (e ∈ (layered .last).transitions ((layered .last).fill l) ↔
        e ∈ (FunctionalRelation.ofList l).edges)) ∧
    ∀ f, (∀ r, flat.mapStates f r = Relation.mapStates f r) ∧
      ∀ r, functional.mapStates f r = FunctionalRelation.mapStates f r := by
  refine ⟨⟨lawful_flat.behavesAsSet l, lawful_functional.behavesAsSet l⟩,
    ⟨(lawful_layered _).behavesAsSet l, (lawful_layered _).behavesAsSet l⟩, ⟨rfl, rfl⟩,
    fun e => ⟨?_, ?_⟩, fun f => ⟨mapStates_flat f, fun _ => rfl⟩⟩
  · exact (lawful_layered _).mem_transitions_fill_iff lawful_flat rfl
  · exact (lawful_layered _).mem_transitions_fill_iff lawful_functional rfl

end RelationKind

end Automata
