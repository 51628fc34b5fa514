import Automata.FinMap
import Automata.Proofs.SymbolSessions

/-!
# Symbol tables with indexes

A list of kinds and names says all there is to say about a table of symbols, but it has to be
searched for every symbol that is asked for.  To be quick, a table is kept in three parts: the names
of all symbols by number, and for each kind an index from names to symbols.  The price is that
everything is said twice, and that the parts have to be kept in step.

Parts are in step if they say what one list says.  That is what a request preserves, so it holds of
whatever comes about by requests.  That the parts agree among themselves, name by name and number by
number, follows from it, and so does that the same can be read from them as from the list.

## What is here

* `SymbolTable.symbols` — the symbols of one kind as a list, with their order and names.
* `IndexedTable` — the three parts, with all that is asked of a table.
* `IndexedTable.Represents` — three parts say what a list says; `IndexedTable.Represents.serve` —
  **a request is answered alike, and leaves the parts in step.**
* `IndexedTable.Represents.toList_symbols` — sorted by number, the symbols in an index are those of
  the list, in its order.
* `IndexedTable.Consistent`, `IndexedTable.agrees_of_requests` — **after any requests the parts
  agree among themselves, and with the list in everything that can be asked.**
-/

set_option autoImplicit false

namespace Automata

/-! ## Lists of symbols -/

namespace SymbolTable

variable {t : SymbolTable} {s : Symbol} {kind : SymbolKind} {name : String}

/-- An entry that is new is found at the end, and all others where they were. -/
theorem find?_concat (hnew : t.find? kind name = none) (kind' : SymbolKind) (name' : String) :
    SymbolTable.find? ⟨t.entries ++ [(kind, name)]⟩ kind' name' =
      if (kind', name') = (kind, name) then some ⟨t.size, kind⟩ else t.find? kind' name' := by
  have hsingle : [(kind, name)].findIdx? (· == (kind', name')) =
      if (kind', name') = (kind, name) then some 0 else none := by
    by_cases h : (kind, name) = (kind', name')
    · simp [h]
    · simp [h, Ne.symm h]
  rw [find?, List.idxOf?, List.findIdx?_append, hsingle, ← List.idxOf?]
  by_cases h : (kind', name') = (kind, name)
  · obtain ⟨rfl, rfl⟩ := Prod.mk.inj h
    rw [find?, Option.map_eq_none_iff] at hnew
    simp [hnew, size]
  · simp [h, find?]

/-- The symbols of one kind, in the order of their numbers. -/
def symbols (t : SymbolTable) (kind : SymbolKind) : List Symbol :=
  t.entries.zipIdx.filterMap fun (entry, n) => if entry.1 = kind then some ⟨n, kind⟩ else none

theorem mem_symbols :
    s ∈ t.symbols kind ↔ s.kind = kind ∧ ∃ name, t.entries[s.number]? = some (kind, name) := by
  simp only [symbols, List.mem_filterMap, Prod.exists, List.mem_zipIdx_iff_getElem?]
  constructor
  · rintro ⟨k, name, n, hentry, hs⟩
    split at hs
    · obtain rfl := Option.some.inj hs
      subst kind
      exact ⟨rfl, name, hentry⟩
    · cases hs
  · rintro ⟨rfl, name, hentry⟩
    exact ⟨s.kind, name, s.number, hentry, by simp⟩

/-- One more entry gives its kind one more symbol. -/
theorem symbols_concat (entries : List (SymbolKind × String)) (entry : SymbolKind × String)
    (kind : SymbolKind) : symbols ⟨entries ++ [entry]⟩ kind =
      symbols ⟨entries⟩ kind ++ if entry.1 = kind then [⟨entries.length, kind⟩] else [] := by
  simp only [symbols, List.zipIdx_append, List.filterMap_append]
  split <;> simp [*]

/-- The symbols have ascending numbers. -/
theorem ascending_symbols (t : SymbolTable) (kind : SymbolKind) :
    (t.symbols kind).Pairwise fun s s' => compare s s' = .lt := by
  obtain ⟨entries⟩ := t
  induction entries using List.reverseRecOn with
  | nil => exact .nil
  | append_singleton entries entry ih =>
    rw [symbols_concat, List.pairwise_append]
    refine ⟨ih, ?_, fun s hs s' hs' => ?_⟩
    · split <;> simp
    · split at hs'
      · obtain rfl := List.mem_singleton.1 hs'
        obtain ⟨_, name, hentry⟩ := mem_symbols.1 hs
        have hlt : s.number < entries.length := (List.getElem?_eq_some_iff.1 hentry).1
        show compareLex _ _ s _ = .lt
        simp [compareLex, compareOn, Nat.compare_eq_lt.2 hlt]
      · simp at hs'

/-- The symbols of a kind have the names of that kind, in this order. -/
theorem map_nameOf_symbols (t : SymbolTable) (kind : SymbolKind) :
    (t.symbols kind).map t.nameOf = (t.names kind).map .ok := by
  obtain ⟨entries⟩ := t
  induction entries using List.reverseRecOn with
  | nil => rfl
  | append_singleton entries entry ih =>
    have hold : (symbols ⟨entries⟩ kind).map (nameOf ⟨entries ++ [entry]⟩) =
        (symbols ⟨entries⟩ kind).map (nameOf ⟨entries⟩) := by
      refine List.map_congr_left fun s hs => ?_
      obtain ⟨_, name, hentry⟩ := mem_symbols.1 hs
      have hlt : s.number < entries.length := (List.getElem?_eq_some_iff.1 hentry).1
      simp [nameOf, List.getElem?_append_left hlt]
    rw [symbols_concat, List.map_append, hold, ih]
    by_cases hkind : entry.1 = kind
    · simp [names, nameOf, hkind]
    · simp [names, hkind]

end SymbolTable

/-! ## Names and indexes -/

/-- A table of symbols in three parts. -/
structure IndexedTable where
  /-- The names of all symbols, in the order of their numbers. -/
  names : List String := []
  /-- The terminals by name. -/
  terminals : FinMap String Symbol := ∅
  /-- The nonterminals by name. -/
  nonterminals : FinMap String Symbol := ∅

namespace IndexedTable

/-- The symbols of a kind by name. -/
def index (p : IndexedTable) : SymbolKind → FinMap String Symbol
  | .terminal => p.terminals
  | .nonterminal => p.nonterminals

/-- The table with a symbol more, which gets the next number. -/
def add (p : IndexedTable) (kind : SymbolKind) (name : String) : IndexedTable :=
  let s : Symbol := ⟨p.names.length, kind⟩
  match kind with
  | .terminal => { p with names := p.names ++ [name], terminals := p.terminals.insert name s }
  | .nonterminal =>
    { p with names := p.names ++ [name], nonterminals := p.nonterminals.insert name s }

/-- The symbol of that kind and name, which is added if its index does not have it, and the table
afterwards. -/
def intern (p : IndexedTable) (kind : SymbolKind) (name : String) :
    Except Error Symbol × IndexedTable :=
  if name.isEmpty then (.error .emptySymbolName, p)
  else
    match (p.index kind).get? name with
    | some s => (.ok s, p)
    | none => (.ok ⟨p.names.length, kind⟩, p.add kind name)

/-- The symbol of that name, a terminal before a nonterminal. -/
def lookup (p : IndexedTable) (name : String) : Except Error Symbol :=
  if name.isEmpty then .error .emptySymbolName
  else
    match p.terminals.get? name <|> p.nonterminals.get? name with
    | some s => .ok s
    | none => .error (.unknownSymbol name)

/-- The answer to a request, and the table afterwards. -/
def serve (p : IndexedTable) : Request → Except Error Symbol × IndexedTable
  | .intern kind name => p.intern kind name
  | .lookup name => (p.lookup name, p)

/-- The table after some requests. -/
def after (requests : List Request) : IndexedTable := requests.foldl (fun p r => (p.serve r).2) {}

/-- The name of a symbol of this table. -/
def nameOf (p : IndexedTable) (s : Symbol) : Except Error String :=
  match p.names[s.number]? with
  | some name => .ok name
  | none => .error .foreignSymbol

/-- The symbols of one kind.  Whatever the order in an index, they are listed by number. -/
def symbols (p : IndexedTable) (kind : SymbolKind) : FinSet Symbol :=
  FinSet.ofList ((p.index kind).entries.map Prod.snd)

variable {p : IndexedTable} {t : SymbolTable} {s : Symbol} {kind : SymbolKind} {name : String}

theorem index_add (p : IndexedTable) (kind kind' : SymbolKind) (name : String) :
    (p.add kind name).index kind' =
      if kind' = kind then (p.index kind').insert name ⟨p.names.length, kind⟩
      else p.index kind' := by
  cases kind <;> cases kind' <;> rfl

@[simp] theorem names_add (p : IndexedTable) (kind : SymbolKind) (name : String) :
    (p.add kind name).names = p.names ++ [name] := by
  cases kind <;> rfl

/-! ## Parts in step -/

/-- The three parts say what a list of kinds and names says. -/
structure Represents (p : IndexedTable) (t : SymbolTable) : Prop where
  /-- The names are those of the list. -/
  names_eq : p.names = t.entries.map Prod.snd
  /-- The indexes find what is found in the list. -/
  get?_index : ∀ kind name, (p.index kind).get? name = t.find? kind name

namespace Represents

theorem empty : Represents {} {} := by
  refine ⟨rfl, fun kind name => ?_⟩
  cases kind <;> rfl

theorem length_names (h : p.Represents t) : p.names.length = t.size := by
  simp [h.names_eq, SymbolTable.size]

/-- A symbol that is new joins the names and its index. -/
theorem add (h : p.Represents t) (hnew : t.find? kind name = none) :
    (p.add kind name).Represents ⟨t.entries ++ [(kind, name)]⟩ where
  names_eq := by simp [h.names_eq]
  get?_index kind' name' := by
    rw [SymbolTable.find?_concat hnew, index_add, h.length_names]
    by_cases hkind : kind' = kind
    · by_cases hname : name' = name
      · simp [hkind, hname]
      · simp [hkind, hname, h.get?_index]
    · simp [hkind, h.get?_index]

theorem lookup_eq (h : p.Represents t) (name : String) : p.lookup name = t.lookup name := by
  have hterminal : p.terminals.get? name = t.find? .terminal name := h.get?_index .terminal name
  have hnonterminal : p.nonterminals.get? name = t.find? .nonterminal name :=
    h.get?_index .nonterminal name
  rw [lookup, hterminal, hnonterminal]
  rfl

/-- **A request is answered alike, and leaves the parts in step.** -/
theorem serve (h : p.Represents t) (r : Request) :
    (p.serve r).1 = (r.serve t).1 ∧ (p.serve r).2.Represents (r.serve t).2 := by
  cases r with
  | lookup name => exact ⟨h.lookup_eq name, h⟩
  | intern kind name =>
    simp only [IndexedTable.serve, Request.serve, intern, SymbolTable.run_intern, h.get?_index]
    by_cases hempty : name.isEmpty = true
    · simp [hempty, h]
    · cases hfind : t.find? kind name with
      | some s => simp [hempty, h]
      | none => simp [hempty, h.length_names, h.add hfind]

/-- The parts stay in step, whatever is asked. -/
theorem after (requests : List Request) :
    (after requests).Represents (Session.of requests).table := by
  induction requests using List.reverseRecOn with
  | nil => exact empty
  | append_singleton requests r ih =>
    rw [Session.of_concat, IndexedTable.after, List.foldl_append]
    exact (ih.serve r).2

/-! ## What can be read from the parts -/

theorem nameOf_eq (h : p.Represents t) (s : Symbol) : p.nameOf s = t.nameOf s := by
  rw [nameOf, SymbolTable.nameOf, h.names_eq, List.getElem?_map]
  cases t.entries[s.number]? <;> rfl

/-- **Listed by number, the symbols of a kind are those of the list, in its order.** -/
theorem toList_symbols (h : p.Represents t) (ht : t.entries.Nodup) (kind : SymbolKind) :
    (p.symbols kind).toList = t.symbols kind := by
  refine FinSet.eq_of_ascending (p.symbols kind).ascending (t.ascending_symbols kind) fun s => ?_
  simp only [symbols, FinSet.mem_toList, FinSet.mem_ofList, List.mem_map, Prod.exists,
    exists_eq_right, ← FinMap.get?_eq_some_iff, h.get?_index, SymbolTable.find?_eq_some_iff ht,
    SymbolTable.mem_symbols, exists_and_left]

/-- An index has as many entries as there are names of its kind. -/
theorem length_index (h : p.Represents t) (ht : t.entries.Nodup) (kind : SymbolKind) :
    (p.index kind).entries.length = (t.names kind).length := by
  have hmem : ∀ name, name ∈ (p.index kind).keys ↔ name ∈ t.names kind := by
    intro name
    calc name ∈ (p.index kind).keys
        ↔ ∃ s, (p.index kind).get? name = some s := by simp [FinMap.keys, FinMap.get?_eq_some_iff]
      _ ↔ (kind, name) ∈ t.entries := by
          rw [h.get?_index, ← Option.ne_none_iff_exists', Ne, SymbolTable.find?_eq_none_iff,
            not_not]
      _ ↔ name ∈ t.names kind := by
          simp [SymbolTable.names_eq_filterMap, SymbolTable.nameUnder_eq_some_iff]
  have hperm := (List.perm_ext_iff_of_nodup (p.index kind).nodup_keys
    (SymbolTable.nodup_names ht kind)).2 hmem
  simpa [FinMap.keys] using hperm.length_eq

end Represents

/-- The three parts agree among themselves. -/
structure Consistent (p : IndexedTable) : Prop where
  /-- An index holds symbols of its kind only, and their numbers lead back to their names. -/
  index_sound : ∀ kind name s, (p.index kind).get? name = some s →
    s.kind = kind ∧ p.names[s.number]? = some name
  /-- Every number is found under its name, and in one index only. -/
  index_complete : ∀ n name, p.names[n]? = some name →
    ∃! kind, (p.index kind).get? name = some ⟨n, kind⟩

/-- Parts that say what a list says agree among themselves, if the list says nothing twice. -/
theorem Represents.consistent (h : p.Represents t) (ht : t.entries.Nodup) : p.Consistent where
  index_sound kind name s hs := by
    rw [h.get?_index, SymbolTable.find?_eq_some_iff ht] at hs
    simp [h.names_eq, hs]
  index_complete n name hname := by
    rw [h.names_eq, List.getElem?_map, Option.map_eq_some_iff] at hname
    obtain ⟨⟨kind, name'⟩, hentry, hname⟩ := hname
    obtain rfl : name' = name := hname
    refine ⟨kind, ?_, fun kind' hkind' => ?_⟩
    · simp only [h.get?_index, SymbolTable.find?_eq_some_iff ht]
      exact ⟨trivial, hentry⟩
    · simp only [h.get?_index, SymbolTable.find?_eq_some_iff ht] at hkind'
      rw [hentry] at hkind'
      simpa using hkind'.2.symm

/-- **After any requests, a table in three parts is in order and says what a list of kinds and names
says.**  Its parts agree among themselves.  It answers every further request as the list does, gives
all symbols the same names, and has the same symbols of each kind, in the same order. -/
theorem agrees_of_requests (requests : List Request) :
    (after requests).Consistent ∧
    (∀ r, ((after requests).serve r).1 = (r.serve (Session.of requests).table).1) ∧
    (∀ s, (after requests).nameOf s = (Session.of requests).table.nameOf s) ∧
    (after requests).names.length = (Session.of requests).table.size ∧
    ∀ kind,
      ((after requests).index kind).entries.length =
        ((Session.of requests).table.names kind).length ∧
      ((after requests).symbols kind).toList.map (after requests).nameOf =
        ((Session.of requests).table.names kind).map .ok := by
  have h := Represents.after requests
  have hnodup := (Session.obtainable_of requests).nodup
  refine ⟨h.consistent hnodup, fun r => (h.serve r).1, h.nameOf_eq, h.length_names, fun kind => ?_⟩
  refine ⟨h.length_index hnodup kind, ?_⟩
  rw [h.toList_symbols hnodup, funext h.nameOf_eq, SymbolTable.map_nameOf_symbols]

end IndexedTable

end Automata
