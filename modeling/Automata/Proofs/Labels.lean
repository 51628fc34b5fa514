import Automata.Proofs.Description
import Automata.Proofs.Grammars
import Mathlib.Data.Set.Basic

/-!
# What symbols stand for

The number of a symbol depends on everything that its table was asked for before.  What it stands
for, a kind and a name, does not, and neither does a grammar that is written with kinds and names in
place of symbols.  This file says how symbols, rules and grammars are read with a table in hand, and
how computations are followed whose symbols are to stand for known kinds and names.

## What is here

* `Label`, `WrittenRule`, `WrittenGrammar` — kinds with names, and rules and grammars of them.
* `SymbolTable.StandsFor`, `Rule.StandsFor`, `Grammar.StandsFor` — what the symbols, rules and
  grammars of a table stand for, which stays the same when the table grows.
* `Grammar.StandsFor.eq` — **a grammar is determined by what it stands for.**
* `Obtains` — computations that succeed, with what they ask for and what holds of their values;
  `Obtains.bind` and `Obtains.mapM` follow them step by step.
-/

set_option autoImplicit false

namespace Automata

/-- A kind and a name. -/
abbrev Label := SymbolKind × String

/-- A rule with labels in place of symbols. -/
structure WrittenRule where
  /-- The label that is replaced. -/
  left : Label
  /-- What takes its place. -/
  right : List Label
deriving DecidableEq, Repr

/-- A grammar with labels in place of symbols. -/
@[ext]
structure WrittenGrammar where
  /-- The label from which everything is derived. -/
  root : Label
  /-- The rules. -/
  rules : Set WrittenRule

/-- The labels that a grammar is written with. -/
def WrittenGrammar.labels (w : WrittenGrammar) : Set Label :=
  { l | l = w.root ∨ ∃ n ∈ w.rules, l = n.left ∨ l ∈ n.right }

section StandsFor

variable {table table' : SymbolTable} {s s' : Symbol} {l : Label} {r r' : Rule} {n : WrittenRule}
  {g g' : Grammar} {w : WrittenGrammar}

/-! ## Symbols -/

/-- In the table, the symbol stands for a name and for a kind, which is its own. -/
def SymbolTable.StandsFor (table : SymbolTable) (s : Symbol) (l : Label) : Prop :=
  s.kind = l.1 ∧ table.entries[s.number]? = some l

namespace SymbolTable.StandsFor

theorem has (h : table.StandsFor s l) : table.Has s := ⟨l.2, by rw [h.2, h.1]⟩

theorem nameOf (h : table.StandsFor s l) : table.nameOf s = .ok l.2 :=
  (nameOf_eq_ok_iff h.has).2 (by rw [h.2, h.1])

theorem mem_entries (h : table.StandsFor s l) : l ∈ table.entries := List.mem_of_getElem? h.2

theorem grows (h : table.StandsFor s l) (hgrows : table.Grows table') : table'.StandsFor s l :=
  ⟨h.1, hgrows.getElem? h.2⟩

/-- No label has two symbols. -/
theorem eq (ht : table.entries.Nodup) (h : table.StandsFor s l) (h' : table.StandsFor s' l) :
    s = s' :=
  eq_of_nameOf ht h.has h'.has (h.1.trans h'.1.symm) h.nameOf h'.nameOf

end SymbolTable.StandsFor

/-! ## Rules and grammars -/

/-- The rule stands for a written one, symbol by symbol. -/
structure Rule.StandsFor (table : SymbolTable) (r : Rule) (n : WrittenRule) : Prop where
  left : table.StandsFor r.left n.left
  right : List.Forall₂ table.StandsFor r.right n.right

namespace Rule.StandsFor

theorem grows (h : r.StandsFor table n) (hgrows : table.Grows table') : r.StandsFor table' n :=
  ⟨h.left.grows hgrows, h.right.imp fun _ _ hs => hs.grows hgrows⟩

theorem eq (ht : table.entries.Nodup) (h : r.StandsFor table n) (h' : r'.StandsFor table n) :
    r = r' := by
  have hleft := h.left.eq ht h'.left
  have hright : r.right = r'.right :=
    Relator.LeftUnique.forall₂ (fun _ _ _ hs hs' => hs.eq ht hs') h.right h'.right
  cases r
  cases r'
  exact congrArg₂ Rule.mk hleft hright

/-- All labels of the rule are in the table. -/
theorem mem_entries (h : r.StandsFor table n) (hl : l = n.left ∨ l ∈ n.right) :
    l ∈ table.entries := by
  rcases hl with rfl | hl
  · exact h.left.mem_entries
  · obtain ⟨s, _, hs⟩ := exists_left_of_forall₂ h.right hl
    exact hs.mem_entries

end Rule.StandsFor

/-- The root stands for the root of a written grammar, and the rules for its rules. -/
structure Grammar.StandsFor (table : SymbolTable) (g : Grammar) (w : WrittenGrammar) : Prop where
  root : table.StandsFor g.root w.root
  rule : ∀ r, r ∈ g.rules → ∃ n ∈ w.rules, r.StandsFor table n
  written : ∀ n ∈ w.rules, ∃ r, r ∈ g.rules ∧ r.StandsFor table n

namespace Grammar.StandsFor

theorem grows (h : g.StandsFor table w) (hgrows : table.Grows table') : g.StandsFor table' w where
  root := h.root.grows hgrows
  rule r hr := by
    obtain ⟨n, hn, hrn⟩ := h.rule r hr
    exact ⟨n, hn, hrn.grows hgrows⟩
  written n hn := by
    obtain ⟨r, hr, hrn⟩ := h.written n hn
    exact ⟨r, hr, hrn.grows hgrows⟩

/-- What stands for the same written grammar has the same rules. -/
theorem mem_rules (ht : table.entries.Nodup) (h : g.StandsFor table w) (h' : g'.StandsFor table w)
    (hr : r ∈ g.rules) : r ∈ g'.rules := by
  obtain ⟨n, hn, hrn⟩ := h.rule r hr
  obtain ⟨r', hr', hrn'⟩ := h'.written n hn
  exact hrn.eq ht hrn' ▸ hr'

/-- **A grammar is determined by what it stands for.** -/
theorem eq (ht : table.entries.Nodup) (h : g.StandsFor table w) (h' : g'.StandsFor table w) :
    g = g' := by
  have hroot := h.root.eq ht h'.root
  have hrules : g.rules = g'.rules :=
    FinSet.ext fun r => ⟨h.mem_rules ht h', h'.mem_rules ht h⟩
  cases g
  cases g'
  exact congrArg₂ Grammar.mk hroot hrules

/-- All labels of the grammar are in the table. -/
theorem mem_entries (h : g.StandsFor table w) (hl : l ∈ w.labels) : l ∈ table.entries := by
  rcases hl with rfl | ⟨n, hn, hl⟩
  · exact h.root.mem_entries
  · obtain ⟨r, _, hrn⟩ := h.written n hn
    exact hrn.mem_entries hl

end Grammar.StandsFor

end StandsFor

/-! ## Computations that succeed -/

variable {α β : Type}

/-- Run on the table `t`, the computation succeeds.  It does nothing to the table but ask for some
of the labels, so that the table stays as it is if it has them all, and `P` holds of its value in
every table that the table grows into. -/
def Obtains (labels : Set Label) (x : Interning α) (P : SymbolTable → α → Prop) (t : SymbolTable) :
    Prop :=
  ∃ a t', x.run t = .ok a t' ∧ t.Grows t' ∧ ((∀ l ∈ labels, l ∈ t.entries) → t' = t) ∧
    ∀ t'', t'.Grows t'' → P t'' a

namespace Obtains

variable {labels : Set Label} {P : SymbolTable → α → Prop} {Q : SymbolTable → β → Prop}
  {t : SymbolTable}

theorem pure {a : α} (h : ∀ t', t.Grows t' → P t' a) : Obtains labels (Pure.pure a) P t :=
  ⟨a, t, rfl, .refl, fun _ => rfl, h⟩

theorem mono {x : Interning α} {P' : SymbolTable → α → Prop} (hx : Obtains labels x P t)
    (h : ∀ t' a, P t' a → P' t' a) : Obtains labels x P' t := by
  obtain ⟨a, t', hrun, hgrows, hsame, hP⟩ := hx
  exact ⟨a, t', hrun, hgrows, hsame, fun t'' hgrows' => h t'' a (hP t'' hgrows')⟩

/-- A computation is followed step by step. -/
theorem bind {x : Interning α} {f : α → Interning β} (hx : Obtains labels x P t)
    (hf : ∀ a t', t.Grows t' → (∀ t'', t'.Grows t'' → P t'' a) → Obtains labels (f a) Q t') :
    Obtains labels (x >>= f) Q t := by
  obtain ⟨a, t₁, hrun, hgrows, hsame, hP⟩ := hx
  obtain ⟨b, t₂, hrun', hgrows', hsame', hQ⟩ := hf a t₁ hgrows hP
  refine ⟨b, t₂, ?_, hgrows.trans hgrows', fun hall => ?_, hQ⟩
  · rw [EStateM.run_bind, hrun]
    exact hrun'
  · obtain rfl := hsame hall
    exact hsame' hall

theorem mapM {f : α → Interning β} {R : SymbolTable → β → α → Prop} {as : List α}
    (h : ∀ a ∈ as, ∀ t', t.Grows t' → Obtains labels (f a) (fun t b => R t b a) t') :
    Obtains labels (as.mapM f) (fun t bs => List.Forall₂ (R t) bs as) t := by
  induction as generalizing t with
  | nil => exact .pure fun _ _ => .nil
  | cons a as ih =>
    rw [List.mapM_cons]
    refine .bind (h a List.mem_cons_self t .refl) fun b t₁ hgrows hb => ?_
    refine .bind (ih fun a' ha' t' ht' => h a' (List.mem_cons_of_mem _ ha') t' (hgrows.trans ht'))
      fun bs t₂ hgrows' hbs => .pure fun t₃ hgrows'' => ?_
    exact .cons (hb t₃ (hgrows'.trans hgrows'')) (hbs t₃ hgrows'')

/-- A symbol that is asked for by a name that is not empty is obtained. -/
theorem intern {kind : SymbolKind} {name : String} (hname : name ≠ "")
    (hl : (kind, name) ∈ labels) :
    Obtains labels (intern kind name) (fun t s => t.StandsFor s (kind, name)) t := by
  cases hrun : (Automata.intern kind name).run t with
  | error e t' =>
    simp only [SymbolTable.run_intern, String.isEmpty_iff, hname, if_false] at hrun
    split at hrun <;> cases hrun
  | ok s t' =>
    obtain ⟨hkind, hentry, hcases⟩ := SymbolTable.intern_cases hrun
    refine ⟨s, t', hrun, .single ⟨kind, name, s, hrun⟩, fun hall => ?_, fun t'' hgrows => ?_⟩
    · exact hcases.resolve_right fun hnew => hnew.1 (hall _ hl)
    · exact ⟨hkind, hgrows.getElem? hentry⟩

end Obtains

end Automata
