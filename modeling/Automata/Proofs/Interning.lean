import Automata.Proofs.Naming
import Automata.Symbol
import Mathlib.Logic.Relation

/-!
# Interning

A table of symbols only ever grows, and at its end.  So a symbol that was handed out keeps its kind
and its name for good, and asking for the same kind and name again yields the same symbol.

## What is here

* `SymbolTable.Has` — the symbols that a table has handed out.
* `SymbolTable.Grows` — what asking for symbols, any number of times, does to a table, and
  `SymbolTable.Obtainable` — the tables that come about.
* `SymbolTable.Obtainable.symbol_eq` — **a kind and a name stand for one symbol only.**
* `Interns` — what holds of the value of a computation in every table that its own table grows into,
  with `Interns.bind` and `Interns.mapM`, by which it is followed through a computation.
-/

set_option autoImplicit false

namespace Automata

namespace SymbolTable

variable {t t' : SymbolTable} {s : Symbol} {kind : SymbolKind} {name : String}

/-- The symbol `s` was handed out by the table `t`: its number leads to its kind. -/
def Has (t : SymbolTable) (s : Symbol) : Prop :=
  ∃ name, t.entries[s.number]? = some (s.kind, name)

instance (t : SymbolTable) (s : Symbol) : Decidable (t.Has s) :=
  decidable_of_iff (t.entries[s.number]?.map Prod.fst = some s.kind) <| by
    simp only [Has, Option.map_eq_some_iff, Prod.exists, exists_and_right, exists_eq_right]

/-- The symbol `s` is a nonterminal that was handed out by the table `t`. -/
def HasNonterminal (t : SymbolTable) (s : Symbol) : Prop := t.Has s ∧ s.kind = .nonterminal

/-- A symbol was asked for. -/
def Asked (t t' : SymbolTable) : Prop := ∃ kind name s, (intern kind name).run t = .ok s t'

/-- Symbols were asked for, any number of times. -/
abbrev Grows : SymbolTable → SymbolTable → Prop := Relation.ReflTransGen Asked

/-- The table comes about by asking for symbols. -/
def Obtainable (t : SymbolTable) : Prop := Grows {} t

/-- A symbol that is found was handed out for the kind and name. -/
theorem getElem?_of_find? (h : t.find? kind name = some s) :
    s.kind = kind ∧ t.entries[s.number]? = some (kind, name) := by
  obtain ⟨i, hi, rfl⟩ := Option.map_eq_some_iff.1 h
  obtain ⟨hlt, heq, _⟩ := List.idxOf?_eq_some_iff.1 hi
  exact ⟨rfl, List.getElem?_eq_some_iff.2 ⟨hlt, heq⟩⟩

theorem not_mem_of_find? (h : t.find? kind name = none) : (kind, name) ∉ t.entries := by
  rw [find?, Option.map_eq_none_iff, List.idxOf?_eq_none_iff] at h
  exact h

/-- What asking for a symbol does. -/
theorem run_intern (kind : SymbolKind) (name : String) (t : SymbolTable) :
    (intern kind name).run t =
      if name.isEmpty then .error .emptySymbolName t
      else
        match t.find? kind name with
        | some s => .ok s t
        | none => .ok ⟨t.size, kind⟩ ⟨t.entries ++ [(kind, name)]⟩ := by
  rw [intern]
  by_cases hempty : name.isEmpty = true
  · rw [if_pos hempty, if_pos hempty]
    rfl
  · rw [if_neg hempty, if_neg hempty]
    change (match t.find? kind name with | some s => _ | none => _ : Interning Symbol) t = _
    cases t.find? kind name <;> rfl

/-- **A table that is asked for a symbol has it, or gets it as its last entry.** -/
theorem intern_cases (h : (intern kind name).run t = .ok s t') :
    s.kind = kind ∧ t'.entries[s.number]? = some (kind, name) ∧
      (t' = t ∨ (kind, name) ∉ t.entries ∧ t'.entries = t.entries ++ [(kind, name)]) := by
  rw [run_intern] at h
  split at h
  · cases h
  · cases hfind : t.find? kind name with
    | some s' =>
      rw [hfind] at h
      cases h
      exact ⟨(getElem?_of_find? hfind).1, (getElem?_of_find? hfind).2, .inl rfl⟩
    | none =>
      rw [hfind] at h
      cases h
      exact ⟨rfl, List.getElem?_concat_length, .inr ⟨not_mem_of_find? hfind, rfl⟩⟩

/-- A table that refuses a symbol stays as it is. -/
theorem intern_fails {e : Error} (h : (intern kind name).run t = .error e t') : t' = t := by
  rw [run_intern] at h
  split at h
  · cases h
    rfl
  · cases hfind : t.find? kind name <;> rw [hfind] at h <;> cases h

theorem Asked.entries_eq (h : t.Asked t') : ∃ l, t'.entries = t.entries ++ l := by
  obtain ⟨_, _, _, h⟩ := h
  rcases (intern_cases h).2.2 with rfl | ⟨_, h⟩
  · exact ⟨[], (List.append_nil _).symm⟩
  · exact ⟨_, h⟩

theorem Asked.nodup (h : t.Asked t') (ht : t.entries.Nodup) : t'.entries.Nodup := by
  obtain ⟨_, _, _, h⟩ := h
  rcases (intern_cases h).2.2 with rfl | ⟨hnew, h⟩
  · exact ht
  · rw [h, ← List.concat_eq_append]
    exact ht.concat hnew

/-- Entries stay where they are. -/
theorem Grows.getElem? (h : t.Grows t') {i : Nat} {entry : SymbolKind × String}
    (hi : t.entries[i]? = some entry) : t'.entries[i]? = some entry := by
  induction h with
  | refl => exact hi
  | tail _ hasked ih =>
    obtain ⟨l, hl⟩ := hasked.entries_eq
    rw [hl, List.getElem?_append_left (List.getElem?_eq_some_iff.1 ih).1, ih]

/-- No symbol is forgotten. -/
theorem Has.grows (hs : t.Has s) (h : t.Grows t') : t'.Has s := by
  obtain ⟨name, hs⟩ := hs
  exact ⟨name, h.getElem? hs⟩

theorem HasNonterminal.grows (hs : t.HasNonterminal s) (h : t.Grows t') : t'.HasNonterminal s :=
  ⟨hs.1.grows h, hs.2⟩

theorem Obtainable.grows (ht : t.Obtainable) (h : t.Grows t') : t'.Obtainable := ht.trans h

/-- No symbol has two entries. -/
theorem Obtainable.nodup (ht : t.Obtainable) : t.entries.Nodup := by
  induction ht with
  | refl => exact .nil
  | tail _ hasked ih => exact hasked.nodup ih

theorem nameOf_eq_ok_iff (hs : t.Has s) :
    t.nameOf s = .ok name ↔ t.entries[s.number]? = some (s.kind, name) := by
  obtain ⟨name', hs⟩ := hs
  rw [nameOf, hs, Except.ok.injEq, Option.some_inj, Prod.mk.injEq, and_iff_right rfl]

theorem exists_nameOf (hs : t.Has s) : ∃ name, t.nameOf s = .ok name := by
  have ⟨name, hname⟩ := hs
  exact ⟨name, (nameOf_eq_ok_iff hs).2 hname⟩

/-- **A kind and a name stand for one symbol only.** -/
theorem eq_of_nameOf (ht : t.entries.Nodup) {s' : Symbol} (hs : t.Has s) (hs' : t.Has s')
    (hkind : s.kind = s'.kind) (h : t.nameOf s = .ok name) (h' : t.nameOf s' = .ok name) :
    s = s' := by
  rw [nameOf_eq_ok_iff hs] at h
  rw [nameOf_eq_ok_iff hs', ← hkind] at h'
  have hnumber : s.number = s'.number :=
    Option.some_inj.1 (((idxOf?_eq_some_iff_getElem? ht).2 h).symm.trans
      ((idxOf?_eq_some_iff_getElem? ht).2 h'))
  cases s
  cases s'
  rw [Symbol.mk.injEq]
  exact ⟨hnumber, hkind⟩

end SymbolTable

/-! ## Computations that intern -/

variable {α β : Type}

/-- Run on the table `t`, the computation asks for symbols and does nothing else to the table.  If
it yields a value then `P` holds of the value in every table that the table grows into. -/
def Interns (x : Interning α) (P : SymbolTable → α → Prop) (t : SymbolTable) : Prop :=
  match x.run t with
  | .ok a t' => t.Grows t' ∧ ∀ t'', t'.Grows t'' → P t'' a
  | .error _ t' => t.Grows t'

namespace Interns

variable {P : SymbolTable → α → Prop} {Q : SymbolTable → β → Prop} {t t' : SymbolTable}

theorem pure {a : α} (h : ∀ t', t.Grows t' → P t' a) : Interns (Pure.pure a) P t := ⟨.refl, h⟩

theorem throw (e : Error) : Interns (MonadExcept.throw e) P t := .refl

/-- A computation is followed step by step. -/
theorem bind {x : Interning α} {f : α → Interning β} (hx : Interns x P t)
    (hf : ∀ a t', t.Grows t' → (∀ t'', t'.Grows t'' → P t'' a) → Interns (f a) Q t') :
    Interns (x >>= f) Q t := by
  rw [Interns] at hx ⊢
  cases hrun : x.run t with
  | error e t' =>
    rw [hrun] at hx
    have hbind : (x >>= f).run t = .error e t' := by
      simp only [EStateM.run, Bind.bind, EStateM.bind] at hrun ⊢
      rw [hrun]
    rw [hbind]
    exact hx
  | ok a t' =>
    rw [hrun] at hx
    obtain ⟨hgrows, hP⟩ := hx
    have hbind : (x >>= f).run t = (f a).run t' := by
      simp only [EStateM.run, Bind.bind, EStateM.bind] at hrun ⊢
      rw [hrun]
    have hfa := hf a t' hgrows hP
    rw [Interns] at hfa
    rw [hbind]
    cases hrun' : (f a).run t' with
    | error e t'' =>
      rw [hrun'] at hfa
      exact hgrows.trans hfa
    | ok b t'' =>
      rw [hrun'] at hfa
      exact ⟨hgrows.trans hfa.1, hfa.2⟩

theorem mono {P' : SymbolTable → α → Prop} {x : Interning α} (hx : Interns x P t)
    (h : ∀ t' a, P t' a → P' t' a) : Interns x P' t := by
  rw [Interns] at hx ⊢
  cases hrun : x.run t with
  | error e t' =>
    rw [hrun] at hx
    exact hx
  | ok a t' =>
    rw [hrun] at hx
    exact ⟨hx.1, fun t'' hgrows => h t'' a (hx.2 t'' hgrows)⟩

/-- What needs no table leaves the table alone. -/
theorem ofExcept (x : Except Error α) (t : SymbolTable) :
    Interns (ofExcept x) (fun _ _ => True) t := by
  cases x with
  | error e => exact .throw e
  | ok a => exact .pure fun _ _ => .intro

theorem mapM {f : α → Interning β} {l : List α}
    (h : ∀ a ∈ l, ∀ t', t.Grows t' → Interns (f a) Q t') :
    Interns (l.mapM f) (fun t bs => ∀ b ∈ bs, Q t b) t := by
  induction l generalizing t with
  | nil => exact .pure fun _ _ b hb => absurd hb List.not_mem_nil
  | cons a l ih =>
    rw [List.mapM_cons]
    refine .bind (h a List.mem_cons_self t .refl) fun b t₁ hgrows hb => ?_
    refine .bind (ih fun a' ha' t' ht' => h a' (List.mem_cons_of_mem _ ha') t' (hgrows.trans ht'))
      fun bs t₂ hgrows' hbs => .pure fun t₃ hgrows'' b' hb' => ?_
    rcases List.mem_cons.1 hb' with rfl | hb'
    · exact hb t₃ (hgrows'.trans hgrows'')
    · exact hbs t₃ hgrows'' b' hb'

/-- A symbol that is asked for is one of the table, and has the kind that was asked for. -/
theorem intern (kind : SymbolKind) (name : String) (t : SymbolTable) :
    Interns (intern kind name) (fun t s => t.Has s ∧ s.kind = kind) t := by
  rw [Interns]
  cases hrun : (Automata.intern kind name).run t with
  | ok s t' =>
    obtain ⟨hkind, hentry, _⟩ := SymbolTable.intern_cases hrun
    refine ⟨.single ⟨kind, name, s, hrun⟩, fun t'' hgrows => ⟨⟨name, ?_⟩, hkind⟩⟩
    rw [hkind]
    exact hgrows.getElem? hentry
  | error e t' => exact SymbolTable.intern_fails hrun ▸ .refl

/-- What is known of a computation holds of what it yields. -/
theorem of_run {x : Interning α} {a : α} (h : Interns x P t) (hrun : x.run t = .ok a t') :
    t.Grows t' ∧ P t' a := by
  rw [Interns, hrun] at h
  exact ⟨h.1, h.2 t' .refl⟩

end Interns

end Automata
