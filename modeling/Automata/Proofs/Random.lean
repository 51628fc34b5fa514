import Automata.Proofs.Relations
import Automata.Random

/-!
# Random automata

Whatever numbers are drawn, edges are kept from a list of edges between the states or get their
targets among the states, and finals are kept from the states.  Nothing needs to be known of the
source of the numbers for that.

## What is here

* `Yields` — what holds of a drawn value, wherever its source stands, and `Yields.bind`, by which it
  is followed through a computation.
* `wellFormed_randomNFA`, `wellFormed_randomDFA` — **random automata are well-formed**, whatever
  source they are drawn from.
-/

set_option autoImplicit false

namespace Automata

variable {α β σ : Type}

/-- What is drawn satisfies `P`, wherever the source stands. -/
def Yields (x : StateM σ α) (P : α → Prop) : Prop := ∀ s, P (x.run s).1

theorem Yields.pure {P : α → Prop} {a : α} (h : P a) : Yields (Pure.pure a : StateM σ α) P :=
  fun _ => h

/-- A computation is followed step by step. -/
theorem Yields.bind {x : StateM σ α} {f : α → StateM σ β} {P : α → Prop} {Q : β → Prop}
    (hx : Yields x P) (hf : ∀ a, P a → Yields (f a) Q) : Yields (x >>= f) Q :=
  fun s => hf _ (hx s) (x.run s).2

theorem Yields.trivial (x : StateM σ α) : Yields x fun _ => True := fun _ => .intro

variable [Source σ]

theorem yields_keepEdges (density : Float) (edges : List Edge) :
    Yields (keepEdges density edges : StateM σ (List Edge)) fun kept =>
      ∀ e, e ∈ kept → e ∈ edges := by
  induction edges with
  | nil => exact .pure fun _ h => h
  | cons e edges ih =>
    rw [keepEdges]
    refine .bind (.trivial _) fun x _ => .bind ih fun rest hrest => .pure fun f hf => ?_
    split at hf
    · rcases List.mem_cons.1 hf with rfl | hf
      · exact List.mem_cons_self
      · exact List.mem_cons_of_mem _ (hrest f hf)
    · exact List.mem_cons_of_mem _ (hrest f hf)

theorem yields_keepStates (states : List State) :
    Yields (keepStates states : StateM σ (List State)) fun kept => ∀ q, q ∈ kept → q ∈ states := by
  induction states with
  | nil => exact .pure fun _ h => h
  | cons q states ih =>
    rw [keepStates]
    refine .bind (.trivial _) fun x _ => .bind ih fun rest hrest => .pure fun p hp => ?_
    split at hp
    · rcases List.mem_cons.1 hp with rfl | hp
      · exact List.mem_cons_self
      · exact List.mem_cons_of_mem _ (hrest p hp)
    · exact List.mem_cons_of_mem _ (hrest p hp)

theorem yields_chooseTargets (density : Float) (states : List State) (pairs : List (State × Char)) :
    Yields (chooseTargets density states pairs : StateM σ (List Edge)) fun chosen =>
      ∀ e, e ∈ chosen → (e.source, e.symbol) ∈ pairs ∧ e.target ∈ states := by
  induction pairs with
  | nil => exact .pure fun _ h => absurd h List.not_mem_nil
  | cons pair pairs ih =>
    obtain ⟨q, a⟩ := pair
    -- the draws that follow are the same whether the pair got a target or not
    have hrest : ∀ chosen : Option Edge,
        (∀ e, chosen = some e → (e.source, e.symbol) = (q, a) ∧ e.target ∈ states) →
        Yields (do
            let rest ← chooseTargets density states pairs
            return chosen.toList ++ rest : StateM σ (List Edge))
          fun l => ∀ e, e ∈ l → (e.source, e.symbol) ∈ (q, a) :: pairs ∧ e.target ∈ states := by
      refine fun chosen hchosen => .bind ih fun rest hrest => .pure fun e he => ?_
      rcases List.mem_append.1 he with he | he
      · obtain ⟨hpair, htarget⟩ := hchosen e (Option.mem_toList.1 he)
        exact ⟨hpair ▸ List.mem_cons_self, htarget⟩
      · obtain ⟨hpair, htarget⟩ := hrest e he
        exact ⟨List.mem_cons_of_mem _ hpair, htarget⟩
    rw [chooseTargets]
    refine .bind (.trivial _) fun x _ => ?_
    show Yields (if x < density then _ else _) _
    split
    · refine .bind (.trivial _) fun i _ => hrest _ fun e he => ?_
      obtain ⟨p, hp, rfl⟩ := Option.map_eq_some_iff.1 he
      exact ⟨rfl, List.mem_of_getElem? hp⟩
    · exact hrest none fun _ h => nomatch h

theorem zero_mem_randomStates (size : Nat) : "0" ∈ randomStates size :=
  List.mem_map.2 ⟨0, List.mem_range.2 (Nat.lt_of_lt_of_le Nat.zero_lt_one (Nat.le_max_right _ _)),
    rfl⟩

/-- **Random automata are well-formed.** -/
theorem wellFormed_randomNFA (size symbols : Nat) (density : Float) :
    Yields (randomNFA size symbols density : StateM σ NFA) NFA.WellFormed := by
  rw [randomNFA]
  refine .bind (yields_keepEdges density _) fun edges hedges => .bind (yields_keepStates _)
    fun finals hfinals => .pure ?_
  refine NFA.wellFormed_iff.2 ⟨FinSet.mem_ofList.2 (zero_mem_randomStates size),
    fun q hq => FinSet.mem_ofList.2 (hfinals q (FinSet.mem_ofList.1 hq)), fun e he => ?_⟩
  have hm := hedges e (FinSet.mem_ofList.1 he)
  simp only [List.mem_flatMap, List.mem_map] at hm
  obtain ⟨q, hq, a, ha, p, hp, rfl⟩ := hm
  exact ⟨FinSet.mem_ofList.2 hq, ha, FinSet.mem_ofList.2 hp⟩

theorem wellFormed_randomDFA (size symbols : Nat) (density : Float) :
    Yields (randomDFA size symbols density : StateM σ DFA) fun D => D.WellFormed := by
  rw [randomDFA]
  refine .bind (yields_chooseTargets density _ _) fun edges hedges => .bind (yields_keepStates _)
    fun finals hfinals => .pure ?_
  refine NFA.wellFormed_iff.2 ⟨FinSet.mem_ofList.2 (zero_mem_randomStates size),
    fun q hq => FinSet.mem_ofList.2 (hfinals q (FinSet.mem_ofList.1 hq)), fun e he => ?_⟩
  obtain ⟨hpair, htarget⟩ := hedges e (FunctionalRelation.mem_of_mem_ofList he)
  simp only [List.mem_flatMap, List.mem_map, Prod.mk.injEq] at hpair
  obtain ⟨q, hq, a, ha, hqe, hae⟩ := hpair
  exact ⟨FinSet.mem_ofList.2 (hqe ▸ hq), hae ▸ ha, FinSet.mem_ofList.2 htarget⟩

end Automata
